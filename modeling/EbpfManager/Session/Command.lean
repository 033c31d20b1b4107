import EbpfManager.Map.Iteration
import EbpfManager.Session.Basic

namespace EbpfManager

-- A change to a map while its entries are walked over.
inductive WalkEdit
  | delete (key : Datum)
  | upsert (key value : Datum)
  deriving DecidableEq, Repr

-- What is asked of a map.
inductive MapCommand
  | create
  | pin (path : Path)
  | unpin
  | close
  | state
  | describe
  | kernelInfo
  | insert (key value : Datum)
  | update (key value : Datum)
  | upsert (key value : Datum)
  | delete (key : Datum)
  | lookup (key : Datum)
  | lookupInteger (key : Datum)
  | lookupText (key : Datum)
  | lookupPerCpu (key : Datum)
  | nextKey (key : Option Bytes)
  -- No more keys than `limit` are taken.
  | keys (limit : Nat)
  -- No more items than `limit` are taken. Each edit is made after the item with its number.
  | walk (edits : List (Nat × WalkEdit)) (limit : Nat)
  deriving DecidableEq, Repr

-- What is asked of a program. Without flags it is attached with its own.
inductive ProgramCommand
  | load
  | attach (iface : String) (flags : Option XdpFlags)
  | detach
  | pin (path : Path)
  | unpin
  | close
  | state
  deriving DecidableEq, Repr

-- What is asked of a collection.
inductive CollectionCommand
  | load (data : Bytes)
  | loadFile (path : Path)
  | loadPrograms
  | state
  -- Whether there is a map or a program of a name.
  | find (name : String)
  deriving DecidableEq, Repr

-- How the program to be described is named.
inductive SnapshotSource
  | program (program : ProgramRef)
  | fd (fd : Fd)
  | id (id : Nat)
  deriving DecidableEq, Repr

-- What is asked of a session. Objects that are made are kept under the identifier `id`.
inductive Command
  | newMap (id : String) (map : Map)
  | openMap (id : String) (path : Path)
  -- A map for a handle that is open, with what is to be known about it.
  | adoptMap (id : String) (fd : Fd) (info : MapInfo)
  | onMap (map : MapRef) (command : MapCommand)
  | newProgram (id : String) (program : Program)
  | onProgram (program : ProgramRef) (command : ProgramCommand)
  | newCollection (id : String) (options : Options)
  | onCollection (id : String) (command : CollectionCommand)
  -- Asked of a collection, if one is named. Without `id` the snapshot is dropped at once.
  | snapshot (collection : Option String) (source : SnapshotSource) (id : Option String)
  -- Links a program to the session's own maps, known by their identifiers.
  | relocate (definition : ProgramDefinition)
  | drop (map program collection snapshot : Option String)
  | fault (fault : Fault)
  | reportKind (fd : Fd) (number : Nat)
  | createdMaps
  | request (request : Request)
  | makeDirectory (path : Path)
  | write (path : Path) (data : Bytes)
  | remove (path : Path)
  | list (path : Path)

-- What a walk over entries comes to, in turn.
inductive WalkItem
  | entry (item : Except Error (Bytes × Bytes))
  | edited (result : Except Error Unit)

inductive Answer
  | nothing
  | flag (value : Bool)
  | number (value : Nat)
  | text (value : String)
  | octets (value : Bytes)
  | key (value : Option Bytes)
  | slots (values : List Bytes)
  | keys (items : List (Except Error Bytes))
  | walk (items : List WalkItem)
  | map (map : Map)
  | mapInfo (info : MapInfo)
  | program (program : Program)
  | collection (collection : Collection)
  | found (map program : Option String)
  | loads (results : List (String × Except Error Unit))
  | snapshot (snapshot : Snapshot)
  | reply (record : CallRecord)
  | names (names : List String)

-- What a command comes to.
inductive Outcome
  | done (answer : Answer)
  | failed (error : Error)
  -- A call of the kernel or of the file system that was asked for as such failed.
  | refused (cause : CallError)
  -- There is no object of the name.
  | absent

end EbpfManager
