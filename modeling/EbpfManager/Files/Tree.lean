import EbpfManager.Bytes
import EbpfManager.Files.Place
import EbpfManager.Table

namespace EbpfManager

namespace Files

-- The longest path, in octets.
def pathLimit : Nat := 4095

inductive Entry
  | file (contents : Bytes)
  | directory
  -- Another way to a directory.
  | link (target : Place)
  deriving DecidableEq, Repr

-- Where a path leads up to its last part.
inductive Leaf
  -- A name in a directory; `slash` if the path ends in a slash.
  | named (directory : Place) (name : String) (slash : Bool)
  -- A directory, for sure: the path ends in dots, or it is `/`.
  | self (directory : Place)
  deriving DecidableEq, Repr

-- The entries that were made, by their places. Besides these, only the directories are known that
-- the working directory lies in, and the links of `/proc` that lead back to it.
structure Tree where
  entries : Table Place Entry
  deriving Repr

namespace Tree

def empty : Tree := ⟨.empty⟩

-- What is at a place.
def entry? (t : Tree) : Place → Option Entry
  | ⟨_, []⟩ | ⟨.root, ["proc"]⟩ => some .directory
  | ⟨.root, ["proc", "self"]⟩ => some (.link ⟨.process, []⟩)
  | ⟨.process, ["cwd"]⟩ => some (.link .working)
  | ⟨.process, ["root"]⟩ => some (.link .root)
  | place => t.entries.get? place

-- The place that a part of a path leads to from a directory. What is there is another question.
def descend (place : Place) (part : String) : Except CallError Place :=
  if part = "." then .ok place
  else if part = ".." then .ok place.up
  else place.child part

-- The place itself if there is a directory; the end of a link that is there.
def directoryAt (t : Tree) (place : Place) : Except CallError Place :=
  match t.entry? place with
  | some .directory => .ok place
  | some (.link target) => .ok target
  | some (.file _) => .error (.errno Errno.notDirectory)
  | none => .error (.errno Errno.noEntry)

-- The directory that parts lead to.
def walk (t : Tree) (place : Place) : List String → Except CallError Place
  | [] => t.directoryAt place
  | part :: parts => do
    let next ← descend (← t.directoryAt place) part
    t.walk next parts

-- Where a path starts, and its parts; some texts the file system does not take.
def start (p : Path) : Except CallError (Place × List String) :=
  if p.hasZero then .error .interiorZero
  else if p.text = "" then .error (.errno Errno.noEntry)
  else if pathLimit < (Text.encode p.text).length then .error (.errno Errno.nameTooLong)
  else .ok (if p.isAbsolute then .root else .working, p.parts.filter (· ≠ ""))

-- Where a path leads up to its last part.
def leaf (t : Tree) (p : Path) : Except CallError Leaf := do
  let (place, parts) ← start p
  match parts.getLast? with
  | none => return .self place
  | some last =>
    let directory ← t.walk place parts.dropLast
    if last = "." ∨ last = ".." then return .self (← descend directory last)
    else return .named directory last p.endsInSlash

-- What a path leads to. A slash at the end asks for a directory.
def lookup (t : Tree) (p : Path) : Except CallError Entry := do
  match ← t.leaf p with
  | .self _ => return .directory
  | .named directory name slash =>
    match t.entry? (← directory.child name) with
    | none => throw (.errno Errno.noEntry)
    | some (.file contents) =>
      if slash then throw (.errno Errno.notDirectory) else return .file contents
    | some .directory | some (.link _) => return .directory

-- Whether a path leads to anything.
def exists? (t : Tree) (p : Path) : Bool :=
  match t.lookup p with
  | .ok _ => true
  | .error _ => false

-- The contents of a file.
def read (t : Tree) (p : Path) : Except CallError Bytes := do
  match ← t.lookup p with
  | .file contents => return contents
  | .directory | .link _ => throw (.errno Errno.isDirectory)

-- The tree with an entry where none is.
def make (t : Tree) (place : Place) (entry : Entry) : Except CallError Tree :=
  if place.isProcessInfo then .error (.errno Errno.noEntry)
  else .ok ⟨t.entries.insert place entry⟩

-- A new, empty file where nothing is. A slash at the end is refused before the name is looked
-- at.
def create (t : Tree) (p : Path) : Except CallError Tree := do
  match ← t.leaf p with
  | .self _ => throw (.errno Errno.entryExists)
  | .named _ _ true => throw (.errno Errno.isDirectory)
  | .named directory name false =>
    let place ← directory.child name
    match t.entry? place with
    | some _ => throw (.errno Errno.entryExists)
    | none => t.make place (.file [])

-- A file with the given contents, new or not.
def write (t : Tree) (p : Path) (contents : Bytes) : Except CallError Tree := do
  match ← t.leaf p with
  | .self _ | .named _ _ true => throw (.errno Errno.isDirectory)
  | .named directory name false =>
    let place ← directory.child name
    match t.entry? place with
    | some .directory | some (.link _) => throw (.errno Errno.isDirectory)
    | some (.file _) | none => t.make place (.file contents)

-- The tree without a file. The last part of the path is not followed if it is a link, and the
-- links of the system cannot be removed.
def remove (t : Tree) (p : Path) : Except CallError Tree := do
  match ← t.leaf p with
  | .self _ => throw (.errno Errno.isDirectory)
  | .named directory name slash =>
    let place ← directory.child name
    match t.entry? place with
    | none => throw (.errno Errno.noEntry)
    | some .directory => throw (.errno Errno.isDirectory)
    | some (.link _) =>
      throw (.errno (if slash then Errno.notDirectory else Errno.notPermitted))
    | some (.file _) =>
      if slash then throw (.errno Errno.notDirectory) else return ⟨t.entries.erase place⟩

-- A new directory where nothing is.
def makeDirectory (t : Tree) (p : Path) : Except CallError Tree := do
  match ← t.leaf p with
  | .self _ => throw (.errno Errno.entryExists)
  | .named directory name _ =>
    let place ← directory.child name
    match t.entry? place with
    | some _ => throw (.errno Errno.entryExists)
    | none => t.make place .directory

-- The names that were made in a directory, in order; none if it cannot be read.
def list (t : Tree) (p : Path) : List String :=
  let directory? := do
    let (place, parts) ← start p
    t.walk place parts
  match directory? with
  | .ok directory =>
    t.entries.keys.filterMap fun key =>
      if key.up = directory then key.names.getLast? else none
  | .error _ => []

end Tree

end Files

end EbpfManager
