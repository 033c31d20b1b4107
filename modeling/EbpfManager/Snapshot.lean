import EbpfManager.Map.Basic
import EbpfManager.Program.Basic

namespace EbpfManager

-- What the kernel knows about a loaded program and about the maps it uses. Each map has a handle of
-- its own. Maps are known by the names that the kernel keeps, which are cut short; of two maps with
-- one name the later is known by its name and its number. Maps of unknown kinds are left out.
structure Snapshot where
  name : String
  fd : Fd
  id : Nat
  -- Nothing for a kind that is not known.
  kind : Option ProgramKind
  tag : Bytes
  -- In nanoseconds since the system was started, as the kernel counts them. The time of day that
  -- this stands for depends on the clock when it is asked for.
  loadTime : Nat
  -- Zero without compilation to machine code.
  jitedLength : Nat
  xlatedLength : Nat
  gplCompatible : Bool
  maps : Table String Map
  -- The handle was opened for this snapshot.
  ownsHandle : Bool
  deriving Repr

-- Drops all maps of a table.
def dropMaps (maps : Table String Map) (h : Host) : Host :=
  maps.values.foldl (fun h map => map.drop h) h

namespace Snapshot

open Attempt

-- Releases the handle, if the snapshot owns it, and then its maps.
def drop (s : Snapshot) (h : Host) : Host :=
  let h :=
    if s.ownsHandle then
      match h.perform (.close s.fd) with
      | (.ok (), h) => h
      | (.error cause, h) =>
        h.note .warn s!"failed to close program `{s.name}` (fd {s.fd}): {cause.message}"
    else h
  dropMaps s.maps h

-- The map with a given number, unless its kind is unknown.
def openMap (id : Nat) : Attempt (Option Map) := do
  let fd ← accept (.syscall .mapFdById) (← perform (.mapFdById id))
  let info ← Map.infoOrRelease (.syscall .mapInfo) fd
  if (MapKind.ofNumber? info.kindNumber).isNone then
    note .warn s!"skipping map `{info.name}` (id {id}) of unknown type {info.kindNumber}"
    Map.release fd
    return none
  else return some (← Map.ofInfo fd info)

-- The key of a map among those that are there already.
def keyFor (maps : Table String Map) (map : Map) (id : Nat) : String :=
  if maps.contains map.name then s!"{map.name}#{id}" else map.name

-- `maps` and the maps with the given numbers. If one of them cannot be opened, all are dropped.
def gather : List Nat → Table String Map → Attempt (Table String Map)
  | [], maps => return maps
  | id :: ids, maps => do
    match ← (openMap id).orElseClean (dropMaps maps) with
    | none => gather ids maps
    | some map =>
      let key := keyFor maps map id
      let replaced := maps.get? key
      modify fun h => (replaced.map (·.drop h)).getD h
      gather ids (maps.insert key map)

-- The snapshot behind a handle, which it owns or not.
def build (fd : Fd) (ownsHandle : Bool) : Attempt Snapshot := do
  let info ← accept (.syscall .programInfo) (← perform (.programInfo fd))
  let maps ← gather info.mapIds .empty
  return {
    name := info.name
    fd
    id := info.id
    kind := ProgramKind.ofNumber? info.kindNumber
    tag := info.tag
    loadTime := info.loadTime
    jitedLength := info.jitedLength
    xlatedLength := info.xlatedLength
    gplCompatible := info.gplCompatible
    maps
    ownsHandle }

-- The program behind a handle, which stays with its owner.
def ofFd (fd : Fd) : Attempt Snapshot := build fd false

-- The program with a given number. The snapshot keeps a handle on it.
def ofId (id : Nat) : Attempt Snapshot := do
  let reply ← perform (.programFdById id)
  let fd ← accept (fun cause =>
    if cause.errno? = some Errno.noEntry then .notFound s!"program id {id}"
    else .syscall .programFdById cause) reply
  (build fd true).orElseClean fun h => (h.perform (.close fd)).2

-- The snapshot of a program that is loaded.
def ofProgram (p : Program) : Attempt Snapshot := do
  ofFd (← p.liveFd)

end Snapshot

end EbpfManager
