namespace EbpfManager

-- A path, absolute or not, as it was written.
structure Path where
  text : String
  deriving DecidableEq, Repr

namespace Path

def isAbsolute (p : Path) : Bool := p.text.toList.head? = some '/'

-- The parts between slashes, empty ones included.
def parts (p : Path) : List String :=
  (p.text.toList.splitOn '/').map String.ofList

def endsInSlash (p : Path) : Bool := p.text.toList.getLast? = some '/'

-- `p` seen from the directory `base`; an absolute path stands for itself.
def join (base p : Path) : Path :=
  if p.isAbsolute then p
  else if base.text = "" ∨ base.endsInSlash then ⟨base.text ++ p.text⟩
  else ⟨base.text ++ "/" ++ p.text⟩

-- What distinguishes paths as keys: neither doubled slashes, nor a slash at the end, nor dots for
-- the same directory do, except for a dot at the very beginning. Going up is kept as it is written,
-- and nothing is looked up.
def key (p : Path) : List String :=
  match p.parts with
  | [] => []
  | first :: rest =>
    let rest := rest.filter fun part => part ≠ "" ∧ part ≠ "."
    if p.isAbsolute then "/" :: rest
    else if first = "" then rest
    else first :: rest

-- No file system takes such a path.
def hasZero (p : Path) : Bool := p.text.toList.contains '\x00'

end Path

end EbpfManager
