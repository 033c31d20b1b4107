import EbpfManager.Bytes

namespace EbpfManager.Elf

-- What a section is for: data that can be written, code, or texts that may be merged.
inductive SectionUse
  | data
  | code
  | texts
  deriving DecidableEq, Repr

-- A symbol to be written; section 0 leaves it undefined.
structure DraftSymbol where
  name : String
  isFunction : Bool
  number : Nat
  value : Nat
  size : Nat
  deriving DecidableEq, Repr

-- A section to be written. Its relocations are offsets and the numbers of the symbols they refer
-- to; the addends are in place.
structure DraftSection where
  name : String
  use : SectionUse
  contents : Bytes
  relocations : List (Nat × Nat)
  deriving DecidableEq, Repr

-- What a writer of object files is asked for. A draft numbers its sections and its symbols from 1
-- on, in order. How they are laid out in a file, which numbers they have there and what else the
-- file has, is up to the writer.
structure Draft where
  sections : List DraftSection
  symbols : List DraftSymbol
  deriving DecidableEq, Repr

-- Numbers in fields of the given widths.
def fields (numbers : List (Nat × Nat)) : Bytes :=
  numbers.flatMap fun (width, n) => Bytes.ofNat width n

-- The smallest multiple of `alignment` that is not below `n`.
def roundUp (alignment n : Nat) : Nat :=
  (n + (alignment - 1)) / alignment * alignment

end EbpfManager.Elf
