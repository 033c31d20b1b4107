import EbpfManager.Map.Basic

namespace EbpfManager.Map

open Attempt

-- Sizes have to stay below this.
def sizeLimit : Nat := Bytes.limit 8

-- The octets of a key. Keys of arrays have to be indices that exist.
def encodeKey (m : Map) (key : Datum) : Except Error Bytes :=
  match key.encode m.keySize with
  | .error e => .error (.invalidKey m.name (.encoding e))
  | .ok bytes =>
    if m.kind.isArray then
      match bytes.decodeIndex? with
      | none => .error (.invalidKey m.name (.noIndex m.keySize))
      | some index =>
        if m.maxEntries ≤ index then
          .error (.keyOutOfRange m.name index (m.maxEntries % Bytes.limit 4))
        else .ok bytes
    else .ok bytes

-- The size of one processor's slot.
def slotSize (m : Map) : Nat := (m.valueSize + 7) / 8 * 8

-- The room for a value: all slots together, where there are slots.
def bufferSize (m : Map) : Except Error Nat :=
  if m.kind.isPerCpu then
    if m.valueSize + 7 < sizeLimit ∧ m.slotSize * m.cpus < sizeLimit then
      .ok (m.slotSize * m.cpus)
    else .error .sizeOverflow
  else .ok m.valueSize

-- The octets of a value. Raw octets of the full size are taken as they are; everything else is
-- written into the slot of every processor.
def encodeValue (m : Map) (value : Datum) : Except Error Bytes := do
  let misfit (e : EncodeError) : Error := .invalidValue m.name (.encoding e)
  let total ← m.bufferSize
  if m.kind.isPerCpu ∧ value.octetLength? ≠ some total then
    let one ← (value.encode m.valueSize).mapError misfit
    if m.slotSize = 0 then throw .sizeOverflow
    let slot := one ++ List.replicate (m.slotSize - one.length) 0
    return (List.replicate m.cpus slot).flatten
  else (value.encode total).mapError misfit

-- Writes an entry. Arrays of handles take plain writes only; as their slots always exist and the
-- key is known to be in range, nothing is lost by asking for no more.
def write (m : Map) (key value : Datum) (flags : UpdateFlags) : Attempt Unit := do
  let fd ← m.liveFd
  let key ← m.encodeKey key
  let value ← m.encodeValue value
  if m.kind.isHandleArray ∧ flags = UpdateFlags.mustNotExist then throw (.keyExists m.name)
  let flags := if m.kind.isHandleArray then UpdateFlags.any else flags
  let reply ← perform (.mapUpdate fd key value flags)
  accept (fun cause =>
    if cause.errno? = some Errno.noEntry then .notFound m.name
    else if cause.errno? = some Errno.entryExists then .keyExists m.name
    else if cause.errno? = some Errno.tooBig ∧ m.kind.isArray then
      .keyOutOfRange m.name (key.decodeUnsigned.toOption.getD 0) (m.maxEntries % Bytes.limit 4)
    else .syscall .mapUpdate cause) reply

-- A new entry; the key must not exist.
def insert (m : Map) (key value : Datum) : Attempt Unit :=
  m.write key value UpdateFlags.mustNotExist

-- Another value for a key that exists. In maps of handles the value is the number of a handle.
def update (m : Map) (key value : Datum) : Attempt Unit :=
  m.write key value UpdateFlags.mustExist

-- A value for a key, whether it exists or not.
def upsert (m : Map) (key value : Datum) : Attempt Unit :=
  m.write key value UpdateFlags.any

-- The octets at a key as the kernel has them.
def lookupOctets (m : Map) (fd : Fd) (key : Bytes) : Attempt Bytes := do
  let size ← m.bufferSize
  let reply ← perform (.mapLookup fd key size)
  accept (fun cause =>
    if cause.errno? = some Errno.noEntry then .notFound m.name
    else .syscall .mapLookup cause) reply

-- The octets of a value, all slots one behind the other where there are slots.
def lookup (m : Map) (key : Datum) : Attempt Bytes := do
  let fd ← m.liveFd
  let key ← m.encodeKey key
  m.lookupOctets fd key

-- The value as a number.
def lookupInteger (m : Map) (key : Datum) : Attempt Nat := do
  if m.kind.isPerCpu then throw (.unsupported .lookupInteger m.name m.kind)
  let value ← m.lookup key
  accept (fun e => .invalidValue m.name (.encoding e)) value.decodeUnsigned

-- The value as a text that ends before the first zero.
def lookupText (m : Map) (key : Datum) : Attempt String := do
  let value ← m.lookup key
  return Text.ofPadded value

-- The value of each processor.
def lookupPerCpu (m : Map) (key : Datum) : Attempt (List Bytes) := do
  if !m.kind.isPerCpu then throw (.unsupported .lookupPerCpu m.name m.kind)
  let value ← m.lookup key
  if m.slotSize = 0 then throw .sizeOverflow
  return (value.chunks m.slotSize).map (·.take m.valueSize)

-- Removes an entry. Slots of arrays cannot be removed.
def delete (m : Map) (key : Datum) : Attempt Unit := do
  let fd ← m.liveFd
  if m.kind.isArray then throw (.unsupported .delete m.name m.kind)
  let key ← m.encodeKey key
  let reply ← perform (.mapDelete fd key)
  accept (fun cause =>
    if cause.errno? = some Errno.noEntry then .notFound m.name
    else .syscall .mapDelete cause) reply

end EbpfManager.Map
