import EbpfManager.Linking
import EbpfManager.Map.Creation
import EbpfManager.Object.Reader
import EbpfManager.Program.Lifecycle
import EbpfManager.Snapshot

namespace EbpfManager

-- Where and how a collection is filled.
structure Options where
  -- Pin paths that are not absolute start here.
  pinRoot : Path := ⟨"/sys/fs/bpf"⟩
  logSize : Nat := 65536
  xdpFlags : XdpFlags := 0
  -- The version code that programs are loaded for when their object names none; zero if it is not
  -- known.
  kernelVersion : UInt32 := 0
  deriving DecidableEq, Repr

-- The maps and programs of one object file. It is filled once: its maps are created while it is
-- filled, and its programs are linked to them and wait to be loaded. If something goes wrong on the
-- way, the pins made so far are removed and the maps are given up, so that nothing is left behind.
structure Collection where
  options : Options := {}
  maps : Table String Map := .empty
  programs : Table String Program := .empty
  loaded : Bool := false
  deriving Repr

-- What has been made of an object so far.
structure Assembly where
  maps : Table String Map := .empty
  -- The maps that were not pinned before, in the order they were made.
  pinned : List String := []
  deriving Repr

namespace Assembly

-- The map of a definition, with its pin path below the root.
def declare (options : Options) (d : MapDefinition) : Map :=
  { Map.ofDefinition d with pinPath := d.pinPath.map options.pinRoot.join }

-- Makes the map of a definition. It takes the place of an earlier map of the same name.
def addMap (options : Options) (d : MapDefinition) : Edit Assembly Unit := fun (a, h) =>
  let map := declare options d
  let reused := map.pinPath.any h.machine.files.exists?
  match Map.create.outcome map h with
  | (.error e, map, h) => .error e (a, map.drop h)
  | (.ok (), map, h) =>
    let pinned := if map.pinPath.isSome ∧ ¬reused then a.pinned ++ [d.name] else a.pinned
    let h := ((a.maps.get? d.name).map (·.drop h)).getD h
    .ok () (⟨a.maps.insert d.name map, pinned⟩, h)

def addMaps (options : Options) (ds : List MapDefinition) : Edit Assembly Unit :=
  ds.forM (addMap options)

-- The program of a definition, linked to the maps.
def program (options : Options) (version : UInt32) (maps : Table String Map)
    (d : ProgramDefinition) : Except Error Program := do
  return {
    name := d.name
    kind := d.kind
    sectionName := d.sectionName
    license := d.license
    code := ← d.relocate maps
    kernelVersion := version
    logSize := options.logSize
    xdpFlags := options.xdpFlags }

def programs (options : Options) (version : UInt32) (maps : Table String Map)
    (ds : List ProgramDefinition) : Except Error (Table String Program) :=
  ds.foldlM (fun t d => return t.insert d.name (← program options version maps d)) .empty

-- Makes everything that an object defines.
def build (options : Options) (o : ObjectFile) : Edit Assembly (Table String Program) := do
  addMaps options o.maps
  let a ← Edit.object
  let version := o.kernelVersion.getD options.kernelVersion
  (programs options version a.maps o.programs : Attempt (Table String Program))

-- Removes the pin of a map. A failure is only noted.
def unpin (maps : Table String Map) (h : Host) (name : String) : Table String Map × Host :=
  match maps.get? name with
  | none => (maps, h)
  | some map =>
    match Map.unpin.outcome map h with
    | (.ok (), map, h) => (maps.insert name map, h)
    | (.error e, map, h) =>
      (maps.insert name map,
        h.note .warn s!"failed to remove pin of map `{name}`: {e.message}")

-- Removes the pins that were made and gives up all maps.
def undo (a : Assembly) (h : Host) : Host :=
  let (maps, h) := a.pinned.foldl (fun (maps, h) name => unpin maps h name) (a.maps, h)
  dropMaps maps h

end Assembly

namespace Collection

open Attempt

-- Fills the collection from the octets of an object file.
def load (data : Bytes) : Edit Collection Unit := fun (c, h) =>
  if c.loaded then .error .objectAlreadyLoaded (c, h)
  else match ObjectFile.parse data with
    | .error e => .error (.format e) (c, h)
    | .ok object =>
      match (Assembly.build c.options object).outcome {} h with
      | (.error e, a, h) => .error e (c, a.undo h)
      | (.ok programs, a, h) =>
        let text := s!"created {a.maps.size} maps, relocated {programs.size} programs"
        .ok () ({ c with maps := a.maps, programs, loaded := true }, h.note .debug text)

-- Fills the collection from a file.
def loadFile (path : Path) : Edit Collection Unit := do
  let h ← (get : Attempt Host)
  let data ← accept (.file path) (h.machine.files.read path)
  note .info s!"loading {path.text}"
  load data

-- Loads programs one after another, whether those before could be loaded or not.
def loadEach : List (String × Program) → Host →
    List (String × Except Error Unit) × List (String × Program) × Host
  | [], h => ([], [], h)
  | (name, p) :: rest, h =>
    let (result, p, h) := Program.load.outcome p h
    let (results, rest, h) := loadEach rest h
    ((name, result) :: results, (name, p) :: rest, h)

-- Loads all programs, in the order of their names.
def loadPrograms : Edit Collection (List (String × Except Error Unit)) := fun (c, h) =>
  let (results, programs, h) := loadEach c.programs.entries h
  .ok results ({ c with programs := ⟨programs⟩ }, h)

-- Gives up all maps and programs.
def drop (c : Collection) (h : Host) : Host :=
  c.programs.values.foldl (fun h p => p.drop h) (dropMaps c.maps h)

end Collection

end EbpfManager
