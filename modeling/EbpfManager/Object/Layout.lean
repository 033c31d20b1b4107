import EbpfManager.Elf.Image
import EbpfManager.Object.FormatError

namespace EbpfManager.Object

open Elf

-- A symbol that begins a range.
structure Mark where
  address : Nat
  size : Nat
  name : String
  deriving DecidableEq, Repr

-- A named part of a section.
structure Range where
  start : Nat
  stop : Nat
  name : String
  deriving DecidableEq, Repr

namespace Range

-- The length; nothing if the range ends before it starts.
def length (r : Range) : Nat := r.stop - r.start

def Contains (r : Range) (offset : Nat) : Prop := r.start ≤ offset ∧ offset < r.stop

instance (r : Range) (offset : Nat) : Decidable (r.Contains offset) :=
  inferInstanceAs (Decidable (_ ∧ _))

end Range

-- The mark that `s` makes in section `number`. If a `kind` is given, only symbols of that kind make
-- marks; symbols for the section as a whole never do, nor do symbols without a name.
def mark? (number : Nat) (kind : Option SymbolKind) (s : Symbol) : Option Mark := do
  let name ← s.name
  if s.inSection = some number ∧ s.kind ≠ .sectionStart ∧ (∀ k ∈ kind, s.kind = k) ∧ name ≠ "" then
    some ⟨s.address, s.size, name⟩
  else none

-- Of neighbours at one address the first, where `last` is the address before.
def firstsAfter (last : Nat) : List Mark → List Mark
  | [] => []
  | m :: rest =>
    if m.address = last then firstsAfter last rest else m :: firstsAfter m.address rest

-- Of neighbours at one address the first.
def firsts : List Mark → List Mark
  | [] => []
  | m :: rest => m :: firstsAfter m.address rest

-- The marks of a section by address, one at each.
def marks (symbols : List Symbol) (number : Nat) (kind : Option SymbolKind) : List Mark :=
  firsts ((symbols.filterMap (mark? number kind)).mergeSort (·.address ≤ ·.address))

-- The ranges that begin at `marks` in a section of `length` octets.
def rangesOf (length : Nat) : List Mark → Except FormatError (List Range)
  | [] => .ok []
  | m :: rest =>
    let stop :=
      if m.size = 0 then (rest.head?.map Mark.address).getD length else m.address + m.size
    if stop < Bytes.limit 8 then do
      let ranges ← rangesOf length rest
      .ok (⟨m.address, stop, m.name⟩ :: ranges)
    else .error .addressOverflow

-- The ranges of section `number`, which is `length` octets long. A symbol with a size ends there;
-- one without ends where the next begins, or where the section ends.
def ranges (symbols : List Symbol) (number length : Nat) (kind : Option SymbolKind) :
    Except FormatError (List Range) :=
  rangesOf length (marks symbols number kind)

-- The contents of a section, which a reader cannot do without.
def contentsOf (s : Section) : Except FormatError Bytes :=
  match s.contents with
  | some contents => .ok contents
  | none => .error (.badSection ((s.name.bind Text.decode?).getD "?"))

-- A place in a section.
structure Target where
  number : Nat
  address : Nat
  deriving DecidableEq, Repr

-- The place a relocation refers to: the symbol's address and the addend, which is `inPlace` where
-- the entry leaves it to the contents. Addresses are taken modulo 2^64.
def target (image : Image) (sectionName : String) (r : Relocation) (inPlace : Int) :
    Except FormatError Target :=
  match r.symbol? with
  | none => .error (.unsupportedRelocation sectionName r.offset)
  | some index =>
    match image.symbolTable[index]?.bind fun s => s.inSection.map (s.address, ·) with
    | none => .error (.unknownSymbol sectionName r.offset)
    | some (address, number) =>
      let addend := match r.addend with
        | .inPlace => inPlace
        | .given value => value
      .ok ⟨number, ((address + addend) % Bytes.limit 8 : Int).toNat⟩

end EbpfManager.Object
