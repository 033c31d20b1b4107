import EbpfManager.Elf.Format

namespace EbpfManager.Elf

-- The fields of a file header that lead to the tables.
structure Header where
  format : Format
  segmentOffset : Nat
  sectionOffset : Nat
  segmentEntrySize : Nat
  segmentCount : Nat
  sectionEntrySize : Nat
  sectionCount : Nat
  nameSection : Nat
  deriving Repr

-- One entry of the section table.
structure SectionHeader where
  nameOffset : Nat
  type : Nat
  flags : Nat
  offset : Nat
  size : Nat
  link : Nat
  info : Nat
  deriving Repr

namespace SectionHeader

def read? (f : Format) (record : Bytes) : Option SectionHeader := do
  let w := f.wordSize
  match ← f.fields? [4, 4, w, w, w, w, 4, 4] record with
  | [name, type, flags, _, offset, size, link, info] =>
    some ⟨name, type, flags, offset, size, link, info⟩
  | _ => none

-- The contents, if they lie inside the file. Some sections have none in the file.
def contents? (s : SectionHeader) (file : Bytes) : Option Bytes :=
  if s.type = typeNoBits then some [] else file.slice? s.offset s.size

-- The contents as a table of records: it has to start at a multiple of `alignment` and to end
-- with a whole record.
def records? (s : SectionHeader) (file : Bytes) (size alignment : Nat) : Option (List Bytes) := do
  let contents ← s.contents? file
  if s.offset % alignment = 0 ∧ contents.length % size = 0 then some (contents.chunks size)
  else none

-- Holds entries that change another section.
def isRelocations (s : SectionHeader) : Bool :=
  s.type = typeRelocations || s.type = typeAddendRelocations

end SectionHeader

namespace Header

-- The magic number, a known class, octet order and version, and a whole header.
def read? (file : Bytes) : Option Header := do
  let ident ← file.slice? 0 16
  match ident with
  | 0x7F :: 0x45 :: 0x4C :: 0x46 :: cls :: order :: version :: _ =>
    let cls ← if cls = 1 then some Class.bits32 else if cls = 2 then some .bits64 else none
    let order ← if order = 1 then some ByteOrder.little else if order = 2 then some .big else none
    if version ≠ 1 then none
    let machine := order.toNat (← file.slice? 18 2)
    let format : Format := ⟨cls, order, machine⟩
    let w := format.wordSize
    let record ← file.slice? 16 (format.headerSize - 16)
    match ← format.fields? [2, 2, 4, w, w, w, 4, 2, 2, 2, 2, 2, 2] record with
    | [_, _, _, _, segments, sections, _, _, segmentSize, segmentCount, sectionSize, sectionCount,
        names] =>
      some ⟨format, segments, sections, segmentSize, segmentCount, sectionSize, sectionCount,
        names⟩
    | _ => none
  | _ => none

-- The first section header, in which counts are kept that the file header has no room for.
-- Nothing at all if there is no section table; that is no failure.
def firstSection? (h : Header) (file : Bytes) : Option (Option SectionHeader) :=
  if h.sectionOffset = 0 then some none
  else if h.sectionEntrySize ≠ h.format.sectionHeaderSize ∨
      h.sectionOffset % h.format.wordSize ≠ 0 then none
  else do
    let record ← file.slice? h.sectionOffset h.format.sectionHeaderSize
    some (some (← SectionHeader.read? h.format record))

-- The section table.
def sections? (h : Header) (file : Bytes) : Option (List SectionHeader) :=
  if h.sectionOffset = 0 then some []
  else do
    let count ←
      if h.sectionCount ≠ 0 then some h.sectionCount
      else (·.elim 0 SectionHeader.size) <$> h.firstSection? file
    if count = 0 then some []
    else if h.sectionEntrySize ≠ h.format.sectionHeaderSize ∨
        h.sectionOffset % h.format.wordSize ≠ 0 then none
    else
      let size := h.format.sectionHeaderSize
      let table ← file.slice? h.sectionOffset (count * size)
      (table.chunks size).mapM (SectionHeader.read? h.format)

-- Nothing is read from the segment table, but it has to be sound.
def segmentsSound (h : Header) (file : Bytes) : Bool :=
  if h.segmentOffset = 0 then true
  else
    let count? : Option Nat :=
      if h.segmentCount ≠ extendedIndex then some h.segmentCount
      else (h.firstSection? file).join.map SectionHeader.info
    match count? with
    | none => false
    | some 0 => true
    | some count =>
      h.segmentEntrySize = h.format.segmentHeaderSize &&
        h.segmentOffset % h.format.wordSize = 0 &&
        (file.slice? h.segmentOffset (count * h.format.segmentHeaderSize)).isSome

-- The number of the section with the section names.
def nameSection? (h : Header) (file : Bytes) : Option Nat := do
  let index ←
    if h.nameSection ≠ extendedIndex then some h.nameSection
    else (← h.firstSection? file).map SectionHeader.link
  if index = 0 then none else some index

end Header

end EbpfManager.Elf
