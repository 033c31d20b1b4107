import EbpfManager.Elf.Draft
import EbpfManager.Elf.Image

namespace EbpfManager.Elf

-- A section as it is laid out.
structure PlacedSection where
  name : String
  type : Nat
  flags : Nat
  link : Nat
  info : Nat
  contents : Bytes
  deriving DecidableEq, Repr

-- What a field for section numbers holds.
def indexField (number : Nat) : Nat :=
  if number < firstReservedIndex then number else extendedIndex

-- Each name with a zero behind it; a zero at the beginning is the empty name.
def nameTable (names : List String) : Bytes :=
  0 :: names.flatMap fun name => Text.encode name ++ [0]

-- Where the name at `position` begins in the table of `names`.
def nameOffset (names : List String) (position : Nat) : Nat :=
  (nameTable (names.take position)).length

-- The flags of a section: allocated, with what it is for.
def SectionUse.flags : SectionUse → Nat
  | .data => 3
  | .code => flagAllocated + flagExecutable
  | .texts => 0x32

namespace Draft

-- Symbol types and bindings, as they stand in a symbol's field.
def infoOf (s : DraftSymbol) : Nat :=
  16 + if s.isFunction then 2 else if s.number = 0 then 0 else 1

-- The number that section `n` has in the file: it comes behind the sections before it and their
-- relocations.
def place (d : Draft) (n : Nat) : Nat :=
  n + (d.sections.take (n - 1)).countP (·.relocations ≠ [])

-- The number of the symbol table, which comes behind all sections.
def symbolsAt (d : Draft) : Nat := d.place (d.sections.length + 1)

def symbolTable (d : Draft) : Bytes :=
  let names := d.symbols.map DraftSymbol.name
  List.replicate 24 0 ++ d.symbols.zipIdx.flatMap fun (s, position) =>
    fields [(4, nameOffset names position), (1, infoOf s), (1, 0), (2, indexField (d.place s.number)),
      (8, s.value), (8, s.size)]

-- What the table of the numbers that `indexField` has no room for has for a number.
def extendedOf (number : Nat) : Nat :=
  if number < firstReservedIndex then 0 else number

def indexTable (d : Draft) : Bytes :=
  Bytes.ofNat 4 0 ++ d.symbols.flatMap fun s => Bytes.ofNat 4 (extendedOf (d.place s.number))

-- Whether there are such numbers.
def needsIndices (d : Draft) : Bool :=
  d.symbols.any fun s => firstReservedIndex ≤ d.place s.number

def relocationTable (s : DraftSection) : Bytes :=
  s.relocations.flatMap fun (offset, symbol) => fields [(8, offset), (8, symbol * Bytes.limit 4 + 1)]

-- Section `n` and its relocations.
def group (d : Draft) (s : DraftSection) (n : Nat) : List PlacedSection :=
  ⟨s.name, typeProgramBits, s.use.flags, 0, 0, s.contents⟩ ::
    if s.relocations = [] then []
    else [⟨".rel" ++ s.name, typeRelocations, 0, d.symbolsAt, d.place n, relocationTable s⟩]

-- All sections of the file from number 1 on.
def placed (d : Draft) : List PlacedSection :=
  let indices :=
    if d.needsIndices then [⟨".symtab_shndx", typeSectionIndices, 0, d.symbolsAt, 0, d.indexTable⟩]
    else []
  let sections := (d.sections.zipIdx 1).flatMap (fun (s, n) => d.group s n) ++
    ⟨".symtab", typeSymbolTable, 0, d.symbolsAt + indices.length + 1, 1, d.symbolTable⟩ :: indices ++
    [⟨".strtab", typeStringTable, 0, 0, 0, nameTable (d.symbols.map DraftSymbol.name)⟩]
  sections ++ [⟨".shstrtab", typeStringTable, 0, 0, 0,
    nameTable (sections.map PlacedSection.name ++ [".shstrtab"])⟩]

-- The contents of sections one behind the other, each filled up to a multiple of 8.
def body (sections : List PlacedSection) : Bytes :=
  sections.flatMap fun s =>
    s.contents ++ List.replicate (roundUp 8 s.contents.length - s.contents.length) 0

-- Where the contents of the section at `position` begin.
def offsetOf (sections : List PlacedSection) (position : Nat) : Nat :=
  64 + (body (sections.take position)).length

-- The header of section 0, which keeps what the file header has no room for.
def firstHeader (count names : Nat) : Bytes :=
  fields [(4, 0), (4, 0), (8, 0), (8, 0), (8, 0),
    (8, if count < firstReservedIndex then 0 else count),
    (4, if names < firstReservedIndex then 0 else names), (4, 0), (8, 0), (8, 0)]

def sectionTable (sections : List PlacedSection) : Bytes :=
  let names := sections.map PlacedSection.name
  firstHeader (sections.length + 1) sections.length ++
    sections.zipIdx.flatMap fun (s, position) =>
      fields [(4, nameOffset names position), (4, s.type), (8, s.flags), (8, 0),
        (8, offsetOf sections position), (8, s.contents.length), (4, s.link), (4, s.info), (8, 8),
        (8, 0)]

def fileHeader (sections : List PlacedSection) : Bytes :=
  let count := sections.length + 1
  [0x7F, 0x45, 0x4C, 0x46, 2, 1, 1, 0, 0, 0, 0, 0, 0, 0, 0, 0] ++
    fields [(2, 1), (2, 247), (4, 1), (8, 0), (8, 0), (8, 64 + (body sections).length), (4, 0),
      (2, 64), (2, 0), (2, 0), (2, 64), (2, if count < firstReservedIndex then count else 0),
      (2, indexField sections.length)]

-- One way to write a draft: 64-bit, least significant octet first, for the BPF machine. Relocations
-- come right behind the section that they change, and all tables at the end. Section numbers that
-- the ordinary fields have no room for go where the format keeps such numbers.
def write (d : Draft) : Bytes :=
  fileHeader d.placed ++ body d.placed ++ sectionTable d.placed

end Draft

end EbpfManager.Elf
