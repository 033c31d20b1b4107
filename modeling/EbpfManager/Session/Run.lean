import EbpfManager.Map.Creation
import EbpfManager.Session.Command

namespace EbpfManager

namespace Map

-- The next keys, at most `bound` of them.
def takeKeys (m : Map) : Nat → Cursor → Host → List (Except Error Bytes) × Host
  | 0, _, h => ([], h)
  | bound + 1, c, h =>
    match m.stepKey c h with
    | (none, _, h) => ([], h)
    | (some item, c, h) =>
      let (items, h) := m.takeKeys bound c h
      (item :: items, h)

def edit (m : Map) : WalkEdit → Attempt Unit
  | .delete key => m.delete key
  | .upsert key value => m.upsert key value

-- Edits one after another, whether those before succeed or not.
def editAll (m : Map) : List WalkEdit → Host → List WalkItem × Host
  | [], h => ([], h)
  | e :: rest, h =>
    let (result, h) := (m.edit e).outcome h
    let (items, h) := m.editAll rest h
    (.edited result :: items, h)

-- The next entries, at most `bound` of them, with the edits between them. The first has the number
-- `position`.
def takeEntries (m : Map) (edits : List (Nat × WalkEdit)) :
    Nat → Nat → Cursor → Host → List WalkItem × Host
  | 0, _, _, h => ([], h)
  | bound + 1, position, c, h =>
    match m.stepEntry c h with
    | (none, _, h) => ([], h)
    | (some item, c, h) =>
      let now := (edits.filter (·.1 = position)).map Prod.snd
      let (edited, h) := m.editAll now h
      let (items, h) := m.takeEntries edits bound (position + 1) c h
      (.entry item :: edited ++ items, h)

end Map

namespace MapCommand

-- A question to a map that leaves the map as it is.
def ask {α : Type} (answer : α → Answer) (question : Map → Attempt α) : Edit Map Answer := do
  let m ← Edit.object
  return answer (← question m)

-- A question that cannot fail.
def askSafely {α : Type} (answer : α → Answer) (question : Map → Host → α × Host) :
    Edit Map Answer :=
  fun (m, h) =>
    let (a, h) := question m h
    .ok (answer a) (m, h)

def run : MapCommand → Edit Map Answer
  | create => do Map.create; return .nothing
  | pin path => do Map.pin path; return .nothing
  | unpin => do Map.unpin; return .nothing
  | close => do Map.close; return .nothing
  | state => return .map (← Edit.object)
  | describe => return .text (← Edit.object).describe
  | kernelInfo => ask .mapInfo Map.kernelInfo
  | insert key value => ask (fun _ => .nothing) (·.insert key value)
  | update key value => ask (fun _ => .nothing) (·.update key value)
  | upsert key value => ask (fun _ => .nothing) (·.upsert key value)
  | delete key => ask (fun _ => .nothing) (·.delete key)
  | lookup key => ask .octets (·.lookup key)
  | lookupInteger key => ask .number (·.lookupInteger key)
  | lookupText key => ask .text (·.lookupText key)
  | lookupPerCpu key => ask .slots (·.lookupPerCpu key)
  | nextKey key => ask .key (·.nextKey key)
  | keys limit => askSafely .keys (·.takeKeys limit {})
  | walk edits limit => askSafely .walk (·.takeEntries edits limit 0 {})

end MapCommand

namespace ProgramCommand

def run : ProgramCommand → Edit Program Answer
  | load => do Program.load; return .nothing
  | attach iface none => do Program.attach iface; return .nothing
  | attach iface (some flags) => do Program.attachWith iface flags; return .nothing
  | detach => do Program.detach; return .nothing
  | pin path => do Program.pin path; return .nothing
  | unpin => do Program.unpin; return .nothing
  | close => do Program.close; return .nothing
  | state => return .program (← Edit.object)

end ProgramCommand

namespace CollectionCommand

def run : CollectionCommand → Edit Collection Answer
  | load data => do Collection.load data; return .nothing
  | loadFile path => do Collection.loadFile path; return .nothing
  | loadPrograms => return .loads (← Collection.loadPrograms)
  | state => return .collection (← Edit.object)
  | find name => do
    let c ← Edit.object
    return .found ((c.maps.get? name).map (·.name)) ((c.programs.get? name).map (·.name))

end CollectionCommand

namespace Session

def outcomeOf : Except Error Answer → Outcome
  | .ok answer => .done answer
  | .error e => .failed e

-- Keeps the map that work opens.
def openMap (s : Session) (id : String) (work : Attempt Map) : Outcome × Session :=
  match work.outcome s.host with
  | (.error e, host) => (.failed e, { s with host })
  | (.ok map, host) => (.done (.map map), { s with host }.putMap id map)

def onMap (s : Session) (place : MapRef) (command : MapCommand) : Outcome × Session :=
  match s.map? place with
  | none => (.absent, s)
  | some map =>
    let (result, map, host) := command.run.outcome map s.host
    (outcomeOf result, { s with host }.setMap map place)

def onProgram (s : Session) (place : ProgramRef) (command : ProgramCommand) : Outcome × Session :=
  match s.program? place with
  | none => (.absent, s)
  | some program =>
    let (result, program, host) := command.run.outcome program s.host
    (outcomeOf result, { s with host }.setProgram program place)

def onCollection (s : Session) (id : String) (command : CollectionCommand) : Outcome × Session :=
  match s.collections.get? id with
  | none => (.absent, s)
  | some c =>
    let (result, c, host) := command.run.outcome c s.host
    (outcomeOf result, { s with host, collections := s.collections.insert id c })

-- The work that makes a snapshot, unless the program is not there.
def snapshotWork (s : Session) : SnapshotSource → Option (Attempt Snapshot)
  | .program place => (s.program? place).map Snapshot.ofProgram
  | .fd fd => some (Snapshot.ofFd fd)
  | .id id => some (Snapshot.ofId id)

-- Makes a snapshot, which is kept or dropped.
def takeSnapshot (s : Session) (source : SnapshotSource) (id : Option String) :
    Outcome × Session :=
  match s.snapshotWork source with
  | none => (.absent, s)
  | some work =>
    match work.outcome s.host with
    | (.error e, host) => (.failed e, { s with host })
    | (.ok i, host) =>
      match id with
      | none => (.done (.snapshot i), { s with host := i.drop host })
      | some id => (.done (.snapshot i), { s with host }.putSnapshot id i)

-- Drops the objects named, and says whether any of them was there.
def dropAll (s : Session) (map program collection snapshot : Option String) :
    Bool × Session :=
  let there := map.any s.maps.contains || program.any s.programs.contains ||
    collection.any s.collections.contains || snapshot.any s.snapshots.contains
  let s := (map.map s.dropMap).getD s
  let s := (program.map s.dropProgram).getD s
  let s := (collection.map s.dropCollection).getD s
  let s := (snapshot.map s.dropSnapshot).getD s
  (there, s)

-- A change of the machine that is no request.
def onMachine (s : Session) (work : Machine → Except CallError Machine) : Outcome × Session :=
  match work s.host.machine with
  | .error cause => (.refused cause, s)
  | .ok machine => (.done .nothing, { s with host := { s.host with machine } })

-- A change of the file tree.
def onFiles (s : Session) (work : Files.Tree → Except CallError Files.Tree) : Outcome × Session :=
  s.onMachine fun machine => do return { machine with files := ← work machine.files }

-- What a command comes to, and the session after it.
def run (s : Session) : Command → Outcome × Session
  | .newMap id map => (.done (.map map), s.putMap id map)
  | .openMap id path => s.openMap id (Map.ofPath path)
  | .adoptMap id fd info => s.openMap id (Map.ofInfo fd info)
  | .onMap place command => s.onMap place command
  | .newProgram id program => (.done (.program program), s.putProgram id program)
  | .onProgram place command => s.onProgram place command
  | .newCollection id options =>
    (.done (.number options.logSize), s.putCollection id { options })
  | .onCollection id command => s.onCollection id command
  | .snapshot collection source id =>
    if collection.all s.collections.contains then s.takeSnapshot source id else (.absent, s)
  | .relocate definition => (outcomeOf (.octets <$> definition.relocate s.maps), s)
  | .drop map program collection snapshot =>
    let (there, s) := s.dropAll map program collection snapshot
    (.done (.flag there), s)
  | .fault fault => (.done .nothing, { s with host.faults := s.host.faults ++ [fault] })
  | .reportKind fd number => s.onMachine (·.reportKind fd number)
  | .createdMaps => (.done (.number s.host.machine.createdMaps), s)
  | .request request =>
    let (reply, host) := s.host.perform request
    (.done (.reply ⟨request, reply⟩), { s with host })
  | .makeDirectory path => s.onFiles (·.makeDirectory path)
  | .write path data => s.onFiles (·.write path data)
  | .remove path => s.onFiles (·.remove path)
  | .list path => (.done (.names (s.host.machine.files.list path)), s)

end Session

end EbpfManager
