import EbpfManager.Host
import EbpfManager.Object.Definition

namespace EbpfManager

-- A declaration that becomes a map of the kernel when it is created. It owns one handle, which it
-- gives up when it is closed or dropped. Sizes are those of the declaration; a kernel takes 32 bits
-- of each.
structure Map where
  name : String
  kind : MapKind
  keySize : Nat
  -- Octets per value, for each processor where each has one.
  valueSize : Nat
  maxEntries : Nat
  flags : UInt32 := 0
  -- What the values of a map of maps look like.
  inner : Option MapShape := none
  -- Where the map is pinned, or will be when it is created.
  pinPath : Option Path := none
  -- Processors with a value of their own; found out when the map is created.
  cpus : Nat := 1
  handle : Handle := .unset
  deriving DecidableEq, Repr

namespace Map

-- The declaration in an object file.
def ofDefinition (d : MapDefinition) : Map where
  name := d.name
  kind := d.shape.kind
  keySize := d.shape.keySize.toNat
  valueSize := d.shape.valueSize.toNat
  maxEntries := d.shape.maxEntries.toNat
  flags := d.shape.flags
  inner := d.inner
  pinPath := d.pinPath

-- The shape that the kernel is asked for.
def shape (m : Map) : MapShape where
  kind := m.kind
  keySize := .ofNat m.keySize
  valueSize := .ofNat m.valueSize
  maxEntries := .ofNat m.maxEntries
  flags := m.flags

def isClosed (m : Map) : Bool := m.handle = .closed

-- The name, the kind and the sizes, one in a line.
def describe (m : Map) : String :=
  s!"Name:          {m.name}\n" ++
    s!"Type:          {m.kind.name}\n" ++
    s!"Key size:      {m.keySize}\n" ++
    s!"Value size:    {m.valueSize}\n" ++
    s!"Max entries:   {m.maxEntries}"

-- The handle, provided it is open.
def liveFd (m : Map) : Except Error Fd :=
  match m.handle with
  | .live fd => .ok fd
  | .unset => .error (.notCreated m.name)
  | .closed => .error (.alreadyClosed m.name)

-- Releases the handle, if it is open. A failure is only noted.
def drop (m : Map) (h : Host) : Host :=
  match m.handle.fd? with
  | none => h
  | some fd =>
    match h.perform (.close fd) with
    | (.ok (), h) => h
    | (.error cause, h) =>
      h.note .warn s!"failed to close map `{m.name}` (fd {fd}): {cause.message}"

-- Processors with a value of their own.
def countCpus (m : Map) : Attempt Nat := do
  if m.kind.isPerCpu then
    Attempt.accept (.syscall .possibleCpus) (← Attempt.perform .possibleCpus)
  else return 1

-- Gives up a handle that nobody owns yet, whatever the kernel says to it.
def release (fd : Fd) : Attempt Unit := do
  let _ ← Attempt.perform (.close fd)

-- The owner of an open handle, by what the kernel reports about it. Without an owner the handle is
-- released.
def ofInfo (fd : Fd) (info : MapInfo) : Attempt Map := do
  match MapKind.ofNumber? info.kindNumber with
  | none =>
    release fd
    throw (.unsupported .openUnknownKind info.name none)
  | some kind =>
    let map : Map := {
      name := info.name
      kind
      keySize := info.keySize.toNat
      valueSize := info.valueSize.toNat
      maxEntries := info.maxEntries.toNat
      flags := info.flags
      handle := .live fd }
    let cpus ← map.countCpus.orElseClean map.drop
    return { map with cpus }

-- What the kernel reports about a handle, which is released if the kernel reports nothing.
def infoOrRelease (wrap : CallError → Error) (fd : Fd) : Attempt MapInfo := do
  match ← Attempt.perform (.mapInfo fd) with
  | .ok info => return info
  | .error cause =>
    release fd
    throw (wrap cause)

-- The map that is pinned at a path.
def ofPath (path : Path) : Attempt Map := do
  let fd ← Attempt.accept (.syscall .objectGet) (← Attempt.perform (.objectGet path))
  let info ← infoOrRelease (.syscall .mapInfo) fd
  let map ← ofInfo fd info
  return { map with pinPath := some path }

-- What the kernel reports about the map.
def kernelInfo (m : Map) : Attempt MapInfo := do
  let fd ← m.liveFd
  Attempt.accept (.syscall .mapInfo) (← Attempt.perform (.mapInfo fd))

end Map

end EbpfManager
