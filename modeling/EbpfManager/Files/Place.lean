import EbpfManager.Kernel.CallError
import EbpfManager.Text.Utf8

namespace EbpfManager

namespace Files

-- The longest name, in octets.
def nameLimit : Nat := 255

-- Where names start.
inductive Base
  -- The directory so many levels above the working directory.
  | working (levels : Nat)
  | root
  -- The directory of the running process.
  | process
  deriving DecidableEq, Repr

-- A position in the file system, whether or not something is there. Names alone lead downwards.
structure Place where
  base : Base
  names : List String
  deriving DecidableEq, Repr

namespace Place

def working : Place := ⟨.working 0, []⟩

def root : Place := ⟨.root, []⟩

-- The parts of a path that leads to a place.
def parts (p : Place) : List String :=
  match p.base with
  | .working levels => List.replicate levels ".." ++ p.names
  | .root => "/" :: p.names
  | .process => "/proc/self" :: p.names

instance : LT Place := ⟨fun p q => p.parts < q.parts⟩

instance : DecidableLT Place := fun p q => inferInstanceAs (Decidable (p.parts < q.parts))

-- The directory above a place. The root lies above itself.
def up (p : Place) : Place :=
  match p.names with
  | [] =>
    match p.base with
    | .working levels => ⟨.working (levels + 1), []⟩
    | .root => root
    | .process => ⟨.root, ["proc"]⟩
  | names => ⟨p.base, names.dropLast⟩

-- Whether a place is where the system shows its processes. Nothing is made there by name.
def isProcessInfo (p : Place) : Bool :=
  match p.base with
  | .working _ => false
  | .root => p.names.head? = some "proc"
  | .process => true

-- The place of a name in a directory. Of processes the system looks for a name of any length.
def child (p : Place) (name : String) : Except CallError Place :=
  if nameLimit < (Text.encode name).length ∧ !p.isProcessInfo then
    .error (.errno Errno.nameTooLong)
  else .ok ⟨p.base, p.names ++ [name]⟩

@[simp] theorem up_append (base : Base) (names : List String) (name : String) :
    (⟨base, names ++ [name]⟩ : Place).up = ⟨base, names⟩ := by
  unfold up
  split <;> simp_all

end Place

end Files

end EbpfManager
