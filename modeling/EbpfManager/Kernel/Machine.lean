import EbpfManager.Files.Tree
import EbpfManager.Instruction
import EbpfManager.Kernel.Request

namespace EbpfManager

-- What a handle is open on. Links are known by the program they attach.
inductive KernelObject
  | map (id : Nat)
  | program (id : Nat)
  | link (program : Nat)
  deriving DecidableEq, Repr

structure KernelMap where
  info : MapInfo
  kind : MapKind
  -- Octets per value, all processors together where each has a value of its own.
  valueLength : Nat
  entries : Table Bytes Bytes
  deriving Repr

-- Maps, programs, the handles that are open on them, the objects pinned at paths, and a tree of
-- files. A call that fails changes nothing: this is said by the types, since such a call has no
-- machine to return.
structure Machine where
  nextFd : Fd := 3
  -- Numbers of maps and programs are counted together.
  lastId : Nat := 0
  handles : Table Fd KernelObject := .empty
  maps : Table Nat KernelMap := .empty
  programs : Table Nat ProgramInfo := .empty
  -- What is pinned, by the keys of paths.
  pins : Table (List String) KernelObject := .empty
  files : Files.Tree := .empty
  deriving Repr

namespace Machine

-- Processors of the machine.
def cpus : Nat := 2

-- The number of the one interface, `lo`.
def loopback : Nat := 1

-- The longest name that the kernel keeps.
def nameLimit : Nat := 15

-- A name as the kernel keeps it.
def keptName (name : String) : String := String.ofList (name.toList.take nameLimit)

-- Octets per value: rounded up to 8 for each processor, where each has a value of its own.
def valueLength (kind : MapKind) (valueSize : Nat) : Nat :=
  if kind.isPerCpu then (valueSize + 7) / 8 * 8 * cpus else valueSize

-- The keys of `width` octets that spell numbers below `count`, in the order of octets.
def indexKeys : Nat → Nat → List Bytes
  | 0, count => if count = 0 then [] else [[]]
  | width + 1, count =>
    (List.range (min count 256)).flatMap fun digit =>
      (indexKeys width ((count - digit + 255) / 256)).map (UInt8.ofNat digit :: ·)

-- The licenses that give a program access to everything.
def gplLicenses : List String :=
  ["GPL", "GPL v2", "GPL and additional rights", "Dual BSD/GPL", "Dual MIT/GPL", "Dual MPL/GPL"]

-- The tag of a program: a 64-bit hash of its code, most significant octet first.
def tag (code : Bytes) : Bytes :=
  let hash := code.foldl (fun hash b => (hash ^^^ b.toUInt64) * 0x100000001B3)
    (0xCBF29CE484222325 : UInt64)
  (Bytes.ofNat 8 hash.toNat).reverse

-- A call that fails with an error number.
def fails {α : Type} (number : Errno) : Except CallError α := .error (.errno number)

variable (m : Machine)

-- Number of handles that are open.
def openHandles : Nat := m.handles.size

-- Number of maps ever created.
def createdMaps : Nat := m.maps.size

-- Number of entries in all maps.
def entryCount : Nat := m.maps.values.foldl (fun count map => count + map.entries.size) 0

-- A new handle on an object.
def openHandle (object : KernelObject) : Fd × Machine :=
  (m.nextFd, { m with nextFd := m.nextFd + 1, handles := m.handles.insert m.nextFd object })

def objectAt (fd : Fd) : Except CallError KernelObject :=
  match m.handles.get? fd with
  | some object => .ok object
  | none => fails Errno.badHandle

-- The map that a handle is open on, and its number.
def mapAt (fd : Fd) : Except CallError (Nat × KernelMap) := do
  match ← m.objectAt fd with
  | .map id =>
    match m.maps.get? id with
    | some map => return (id, map)
    | none => fails Errno.badHandle
  | _ => fails Errno.invalid

-- The program that a handle is open on.
def programAt (fd : Fd) : Except CallError (Nat × ProgramInfo) := do
  match ← m.objectAt fd with
  | .program id =>
    match m.programs.get? id with
    | some program => return (id, program)
    | none => fails Errno.badHandle
  | _ => fails Errno.invalid

-- What a shape must be: no size may be zero, arrays have keys and handles have values of four
-- octets.
def shapeAllowed (s : MapShape) : Bool :=
  s.keySize ≠ 0 && s.valueSize ≠ 0 && s.maxEntries ≠ 0 && (!s.kind.isArray || s.keySize == 4) &&
    (!(s.kind = .programArray || s.kind.isMapOfMaps) || s.valueSize == 4)

-- The entries that a map has from the beginning. Slots for handles stay empty.
def initialEntries (s : MapShape) : Table Bytes Bytes :=
  if s.kind.isArray ∧ ¬s.kind.isHandleArray then
    let zeros := List.replicate (valueLength s.kind s.valueSize.toNat) (0 : UInt8)
    ⟨(indexKeys 4 s.maxEntries.toNat).map (·, zeros)⟩
  else .empty

def mapCreate (a : MapAttributes) : Except CallError (Fd × Machine) := do
  if !shapeAllowed a.shape then fails Errno.invalid
  if a.shape.kind.isMapOfMaps then
    match a.innerFd.bind m.handles.get? with
    | some (.map _) => pure ()
    | _ => fails Errno.badHandle
  let id := m.lastId + 1
  let map : KernelMap := {
    info := {
      name := keptName a.name
      kindNumber := a.shape.kind.number
      id
      keySize := a.shape.keySize
      valueSize := a.shape.valueSize
      maxEntries := a.shape.maxEntries
      flags := a.shape.flags }
    kind := a.shape.kind
    valueLength := valueLength a.shape.kind a.shape.valueSize.toNat
    entries := initialEntries a.shape }
  return { m with lastId := id, maps := m.maps.insert id map }.openHandle (.map id)

def mapLookup (fd : Fd) (key : Bytes) (valueSize : Nat) : Except CallError Bytes := do
  let (_, map) ← m.mapAt fd
  if key.length ≠ map.info.keySize.toNat ∨ valueSize ≠ map.valueLength then fails Errno.invalid
  else match map.entries.get? key with
    | some value => return value
    | none => fails Errno.noEntry

-- What is kept of a value: for a handle the number of the object it is open on.
def storedValue (kind : MapKind) (value : Bytes) : Except CallError Bytes := do
  if value.length ≠ 4 then return value
  else if kind = .programArray then
    match ← m.objectAt (Bytes.toInt value) with
    | .program id => return Bytes.ofNat 4 id
    | _ => fails Errno.invalid
  else if kind.isMapOfMaps then
    match ← m.objectAt (Bytes.toInt value) with
    | .map id => return Bytes.ofNat 4 id
    | _ => fails Errno.invalid
  else return value

-- Whether a map takes a write: what `flags` ask of the entry, and room for a new one.
def admits (map : KernelMap) (key : Bytes) (flags : UpdateFlags) : Except CallError Unit :=
  let present := map.entries.contains key
  if map.kind.isHandleArray ∧ flags ≠ UpdateFlags.any then fails Errno.invalid
  else if map.kind.isArray then
    if map.info.maxEntries.toNat ≤ Bytes.toNat (key.take 4) then fails Errno.tooBig
    else if flags = UpdateFlags.mustNotExist then fails Errno.entryExists
    else .ok ()
  else if flags = UpdateFlags.mustExist ∧ ¬present then fails Errno.noEntry
  else if flags = UpdateFlags.mustNotExist ∧ present then fails Errno.entryExists
  else if ¬present ∧ map.info.maxEntries.toNat ≤ map.entries.size then fails Errno.tooBig
  else .ok ()

def mapUpdate (fd : Fd) (key value : Bytes) (flags : UpdateFlags) :
    Except CallError (Unit × Machine) := do
  let (id, map) ← m.mapAt fd
  let stored ← m.storedValue map.kind value
  if key.length ≠ map.info.keySize.toNat ∨ value.length ≠ map.valueLength then
    fails Errno.invalid
  else
    admits map key flags
    let map := { map with entries := map.entries.insert key stored }
    return ((), { m with maps := m.maps.insert id map })

def mapDelete (fd : Fd) (key : Bytes) : Except CallError (Unit × Machine) := do
  let (id, map) ← m.mapAt fd
  if map.kind.isArray then fails Errno.invalid
  else if map.entries.contains key then
    let map := { map with entries := map.entries.erase key }
    return ((), { m with maps := m.maps.insert id map })
  else fails Errno.noEntry

def mapNextKey (fd : Fd) (key : Option Bytes) : Except CallError (Option Bytes) := do
  let (_, map) ← m.mapAt fd
  match key with
  | none => return map.entries.keys.head?
  | some key => return (map.entries.next? key).map Prod.fst

-- The maps that the loads in `code` refer to, without repetition, from instruction `index` on; or
-- the instruction and the handle of the first load that refers to none.
def loadedMaps : Nat → List Bytes → List Nat → Except (Nat × Fd) (List Nat)
  | _, [], ids => .ok ids
  | index, instruction :: rest, ids =>
    match Instruction.ofBytes? instruction with
    | none => loadedMaps (index + 1) rest ids
    | some i =>
      if i.code = Instruction.loadImmediate64 ∧ i.source = Instruction.mapHandleMark then
        match m.handles.get? i.immediate with
        | some (.map id) =>
          loadedMaps (index + 1) rest (if id ∈ ids then ids else ids ++ [id])
        | _ => .error (index, i.immediate)
      else loadedMaps (index + 1) rest ids

-- What the verifier says about code, and the maps that the code uses.
def verify (code : Bytes) : Except String (List Nat) :=
  if code[code.length - Instruction.size]? ≠ some Instruction.exit then
    .error "last insn is not an exit or jmp\n"
  else match m.loadedMaps 0 (Bytes.chunks Instruction.size code) [] with
    | .ok ids => .ok ids
    | .error (index, fd) => .error s!"{index}: fd {fd} is not pointing to valid bpf_map\n"

-- A verifier's message in a log buffer, whose last octet is left alone.
def logged (message : String) (log : Option LogBuffer) : Option LogBuffer :=
  log.map fun log => log.write ((Text.encode message).take (log.size - 1))

def programLoad (a : ProgramAttributes) (log : Option LogBuffer) :
    (Except CallError Fd × Option LogBuffer) × Machine :=
  if a.code = [] ∨ a.code.length % Instruction.size ≠ 0 then ((fails Errno.invalid, log), m)
  else match m.verify a.code with
    | .error message => ((fails Errno.accessDenied, logged message log), m)
    | .ok mapIds =>
      let id := m.lastId + 1
      let program : ProgramInfo := {
        name := keptName a.name
        kindNumber := a.kind.number
        id
        tag := tag a.code
        jitedLength := 2 * a.code.length
        xlatedLength := a.code.length
        loadTime := 0
        gplCompatible := gplLicenses.contains a.license
        mapIds }
      let (fd, m) := { m with lastId := id, programs := m.programs.insert id program }.openHandle
        (.program id)
      ((.ok fd, log), m)

def objectPin (fd : Fd) (path : Path) : Except CallError (Unit × Machine) := do
  match ← m.objectAt fd with
  | .link _ => fails Errno.invalid
  | object =>
    let files ← m.files.create path
    return ((), { m with files, pins := m.pins.insert path.key object })

def objectGet (path : Path) : Except CallError (Fd × Machine) :=
  if !m.files.exists? path then fails Errno.noEntry
  else match m.pins.get? path.key with
    | some object => .ok (m.openHandle object)
    | none => fails Errno.notPermitted

def xdpAttach (fd : Fd) (interface : Nat) : Except CallError (Fd × Machine) := do
  let (id, program) ← m.programAt fd
  if interface ≠ loopback then fails Errno.noDevice
  else if program.kindNumber ≠ ProgramKind.xdp.number then fails Errno.invalid
  else return m.openHandle (.link id)

def programFdById (id : Nat) : Except CallError (Fd × Machine) :=
  if m.programs.contains id then .ok (m.openHandle (.program id)) else fails Errno.noEntry

def mapFdById (id : Nat) : Except CallError (Fd × Machine) :=
  if m.maps.contains id then .ok (m.openHandle (.map id)) else fails Errno.noEntry

def close (fd : Fd) : Except CallError (Unit × Machine) :=
  if m.handles.contains fd then .ok ((), { m with handles := m.handles.erase fd })
  else fails Errno.badHandle

-- Makes the map behind a handle report another kind.
def reportKind (fd : Fd) (number : Nat) : Except CallError Machine := do
  let (id, map) ← m.mapAt fd
  let map := { map with info := { map.info with kindNumber := number } }
  return { m with maps := m.maps.insert id map }

-- The answer of a call that may change the machine.
def settle {α : Type} : Except CallError (α × Machine) → Except CallError α × Machine
  | .ok (a, m) => (.ok a, m)
  | .error e => (.error e, m)

-- The answer to a request, and the machine after it.
def answer : (r : Request) → r.Reply × Machine
  | .mapCreate attributes => m.settle (m.mapCreate attributes)
  | .mapLookup fd key valueSize => (m.mapLookup fd key valueSize, m)
  | .mapUpdate fd key value flags => m.settle (m.mapUpdate fd key value flags)
  | .mapDelete fd key => m.settle (m.mapDelete fd key)
  | .mapNextKey fd key _ => (m.mapNextKey fd key, m)
  | .programLoad attributes log => m.programLoad attributes log
  | .objectPin fd path => m.settle (m.objectPin fd path)
  | .objectGet path => m.settle (m.objectGet path)
  | .xdpAttach fd interface _ => m.settle (m.xdpAttach fd interface)
  | .interfaceIndex name => (if name = "lo" then some loopback else none, m)
  | .programInfo fd => (Prod.snd <$> m.programAt fd, m)
  | .mapInfo fd => ((fun (_, map) => map.info) <$> m.mapAt fd, m)
  | .programFdById id => m.settle (m.programFdById id)
  | .mapFdById id => m.settle (m.mapFdById id)
  | .close fd => m.settle (m.close fd)
  | .possibleCpus => (.ok cpus, m)

end Machine

end EbpfManager
