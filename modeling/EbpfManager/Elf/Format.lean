import EbpfManager.Bytes

namespace EbpfManager.Elf

-- The width of addresses and offsets in a file.
inductive Class
  | bits32
  | bits64
  deriving DecidableEq, Repr

-- What has to be known to read any field of a file.
structure Format where
  cls : Class
  order : ByteOrder
  -- The number of the machine that the file is for.
  machine : Nat
  deriving DecidableEq, Repr

namespace Format

-- Octets per address; tables of a file start at multiples of it.
def wordSize (f : Format) : Nat :=
  match f.cls with
  | .bits32 => 4
  | .bits64 => 8

def headerSize (f : Format) : Nat :=
  match f.cls with
  | .bits32 => 52
  | .bits64 => 64

def segmentHeaderSize (f : Format) : Nat :=
  match f.cls with
  | .bits32 => 32
  | .bits64 => 56

def sectionHeaderSize (f : Format) : Nat :=
  match f.cls with
  | .bits32 => 40
  | .bits64 => 64

def symbolSize (f : Format) : Nat :=
  match f.cls with
  | .bits32 => 16
  | .bits64 => 24

-- The size of a relocation entry; those with an addend of their own are a word longer.
def relocationSize (f : Format) (withAddend : Bool) : Nat :=
  f.wordSize * if withAddend then 3 else 2

-- The number of the one machine that has the parts of a relocation's info in an order of its own.
def machineMips : Nat := 8

-- The number of the symbol in the info of a relocation. Small words leave an octet for the type of
-- the relocation, large words one half. On the one machine the halves are the other way round if the
-- least significant octet comes first, since its info is several small fields.
def relocationSymbol (f : Format) (info : Nat) : Nat :=
  match f.cls with
  | .bits32 => info / Bytes.limit 1
  | .bits64 =>
    if f.order = .little ∧ f.machine = machineMips then info % Bytes.limit 4
    else info / Bytes.limit 4

-- Numbers of the given widths, one behind the other.
def fields? (f : Format) : List Nat → Bytes → Option (List Nat)
  | [], _ => some []
  | width :: widths, bs => do
    let first ← bs.slice? 0 width
    let rest ← f.fields? widths (bs.drop width)
    some (f.order.toNat first :: rest)

end Format

-- Section types.
def typeProgramBits : Nat := 1
def typeSymbolTable : Nat := 2
def typeStringTable : Nat := 3
def typeAddendRelocations : Nat := 4
def typeNoBits : Nat := 8
def typeRelocations : Nat := 9
def typeDynamicSymbols : Nat := 11
def typeSectionIndices : Nat := 18

-- Section flags: the section is part of the loaded program, and holds code.
def flagAllocated : Nat := 2
def flagExecutable : Nat := 4

-- Section numbers from here on mean something else than a section.
def firstReservedIndex : Nat := 0xFF00

-- Stands for a section number that is kept elsewhere.
def extendedIndex : Nat := 0xFFFF

end EbpfManager.Elf
