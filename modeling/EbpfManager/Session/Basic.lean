import EbpfManager.Collection

namespace EbpfManager

-- Where a map is kept.
inductive MapRef
  | own (id : String)
  | ofCollection (id name : String)
  -- Snapshots have keys of their own for maps.
  | ofSnapshot (id key : String)
  deriving DecidableEq, Repr

-- Where a program is kept.
inductive ProgramRef
  | own (id : String)
  | ofCollection (id name : String)
  deriving DecidableEq, Repr

-- Objects that share one host, each under an identifier. Maps and programs can also be reached
-- through the collection or the snapshot that owns them.
structure Session where
  host : Host := {}
  maps : Table String Map := .empty
  programs : Table String Program := .empty
  collections : Table String Collection := .empty
  snapshots : Table String Snapshot := .empty

namespace Session

def map? (s : Session) : MapRef → Option Map
  | .own id => s.maps.get? id
  | .ofCollection id name => (s.collections.get? id).bind (·.maps.get? name)
  | .ofSnapshot id key => (s.snapshots.get? id).bind (·.maps.get? key)

def program? (s : Session) : ProgramRef → Option Program
  | .own id => s.programs.get? id
  | .ofCollection id name => (s.collections.get? id).bind (·.programs.get? name)

-- The map in a place becomes another one.
def setMap (s : Session) (map : Map) : MapRef → Session
  | .own id => { s with maps := s.maps.insert id map }
  | .ofCollection id name =>
    match s.collections.get? id with
    | none => s
    | some c =>
      let c := { c with maps := c.maps.insert name map }
      { s with collections := s.collections.insert id c }
  | .ofSnapshot id key =>
    match s.snapshots.get? id with
    | none => s
    | some i =>
      let i := { i with maps := i.maps.insert key map }
      { s with snapshots := s.snapshots.insert id i }

-- The program in a place becomes another one.
def setProgram (s : Session) (program : Program) : ProgramRef → Session
  | .own id => { s with programs := s.programs.insert id program }
  | .ofCollection id name =>
    match s.collections.get? id with
    | none => s
    | some c =>
      let c := { c with programs := c.programs.insert name program }
      { s with collections := s.collections.insert id c }

-- Lets go of a map, if there is one under `id`.
def dropMap (s : Session) (id : String) : Session :=
  match s.maps.get? id with
  | none => s
  | some map => { s with host := map.drop s.host, maps := s.maps.erase id }

def dropProgram (s : Session) (id : String) : Session :=
  match s.programs.get? id with
  | none => s
  | some program => { s with host := program.drop s.host, programs := s.programs.erase id }

def dropCollection (s : Session) (id : String) : Session :=
  match s.collections.get? id with
  | none => s
  | some c => { s with host := c.drop s.host, collections := s.collections.erase id }

def dropSnapshot (s : Session) (id : String) : Session :=
  match s.snapshots.get? id with
  | none => s
  | some i => { s with host := i.drop s.host, snapshots := s.snapshots.erase id }

def putMap (s : Session) (id : String) (map : Map) : Session :=
  let s := s.dropMap id
  { s with maps := s.maps.insert id map }

def putProgram (s : Session) (id : String) (program : Program) : Session :=
  let s := s.dropProgram id
  { s with programs := s.programs.insert id program }

def putCollection (s : Session) (id : String) (c : Collection) : Session :=
  let s := s.dropCollection id
  { s with collections := s.collections.insert id c }

def putSnapshot (s : Session) (id : String) (i : Snapshot) : Session :=
  let s := s.dropSnapshot id
  { s with snapshots := s.snapshots.insert id i }

end Session

end EbpfManager
