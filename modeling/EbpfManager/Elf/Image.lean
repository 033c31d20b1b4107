import EbpfManager.Elf.Header
import EbpfManager.Text.Utf8

namespace EbpfManager.Elf

-- What a symbol stands for, as far as it matters here.
inductive SymbolKind
  | function
  | sectionStart
  | other
  deriving DecidableEq, Repr

structure Symbol where
  -- Nothing if the file gives no name or none that is text.
  name : Option String
  kind : SymbolKind
  -- The section that the symbol lies in.
  inSection : Option Nat
  address : Nat
  size : Nat
  deriving DecidableEq, Repr

-- What is added to the address of the symbol that a relocation refers to.
inductive Addend
  -- It stands at the place to be changed.
  | inPlace
  | given (value : Int)
  deriving DecidableEq, Repr

structure Relocation where
  offset : Nat
  -- The number of the symbol referred to, if any.
  symbol? : Option Nat
  addend : Addend
  deriving DecidableEq, Repr

structure Section where
  -- Nothing if the file gives no name.
  name : Option Bytes
  -- Holds code that is loaded.
  isCode : Bool
  -- Nothing if the contents are not inside the file.
  contents : Option Bytes
  relocations : List Relocation
  deriving DecidableEq, Repr

-- A readable file.
structure Image where
  order : ByteOrder
  sections : List Section
  -- By number; number 0 is reserved.
  symbolTable : List Symbol
  deriving DecidableEq, Repr

-- Names that end with a zero octet; nothing if the table is not inside the file.
abbrev NameTable := Option Bytes

-- The name at an offset into the table.
def NameTable.name? (t : NameTable) (offset : Nat) : Option Bytes :=
  t.bind fun names => Bytes.terminated? (names.drop offset)

-- The table of the names in a section. It must not run past the last possible address.
def NameTable.ofSection? (s : SectionHeader) (file : Bytes) : Option NameTable :=
  if s.offset + s.size < Bytes.limit 8 then some (file.slice? s.offset s.size) else none

namespace Symbol

-- The section named by a symbol's field, which leaves large numbers to a table of its own.
def resolveSection (field : Nat) (extended : Option Nat) : Option Nat :=
  let index? :=
    if field = extendedIndex then extended
    else if field < firstReservedIndex then some field
    else none
  index?.filter (· ≠ 0)

def kindOf (info : Nat) : SymbolKind :=
  match info % 16 with
  | 2 | 10 => .function
  | 3 => .sectionStart
  | _ => .other

def read? (f : Format) (names : NameTable) (record : Bytes) (extended : Option Nat) :
    Option Symbol := do
  let (name, info, index, value, size) ← match f.cls with
    | .bits64 => match ← f.fields? [4, 1, 1, 2, 8, 8] record with
      | [name, info, _, index, value, size] => some (name, info, index, value, size)
      | _ => none
    | .bits32 => match ← f.fields? [4, 4, 4, 1, 1, 2] record with
      | [name, value, size, info, _, index] => some (name, info, index, value, size)
      | _ => none
  some {
    name := (names.name? name).bind Text.decode?
    kind := kindOf info
    inSection := resolveSection index extended
    address := value
    size := size }

-- The symbol table among `sections` of the given type, with its number; the first counts. With
-- no such table there are no symbols, and its number is that of no section.
def table? (f : Format) (file : Bytes) (sections : List SectionHeader) (type : Nat) :
    Option (Nat × List Symbol) :=
  match sections.zipIdx.find? (·.1.type = type) with
  | none => some (0, [])
  | some (header, number) => do
    let records ← header.records? file f.symbolSize f.wordSize
    let names ←
      if header.link = 0 then some none
      else do
        let strings ← sections[header.link]?
        if strings.type = typeStringTable then NameTable.ofSection? strings file else none
    let indexTables ← (sections.filter fun s =>
      s.type = typeSectionIndices && s.link = number).mapM (·.records? file 4 4)
    let indices := (indexTables.getLast?.getD []).map f.order.toNat
    let symbols ← records.zipIdx.mapM fun (record, i) => read? f names record indices[i]?
    some (number, symbols)

end Symbol

namespace Relocation

def read? (f : Format) (withAddend : Bool) (record : Bytes) : Option Relocation := do
  let w := f.wordSize
  match ← f.fields? [w, w] record with
  | [offset, info] =>
    let symbol := f.relocationSymbol info
    some {
      offset
      symbol? := if symbol = 0 then none else some symbol
      addend := if withAddend then .given (f.order.toInt (record.drop (2 * w))) else .inPlace }
  | _ => none

-- The entries of a relocation section; none if its table is not sound.
def entries (f : Format) (file : Bytes) (s : SectionHeader) : List Relocation :=
  let withAddend := s.type = typeAddendRelocations
  (do
    let records ← s.records? file (f.relocationSize withAddend) f.wordSize
    records.mapM (read? f withAddend)).getD []

-- The section that a relocation section changes: it has to belong to the symbol table, and number
-- 0 stands for none.
def target? (symbolTable : Nat) (s : SectionHeader) : Option Nat :=
  if s.isRelocations ∧ s.link = symbolTable ∧ s.info ≠ 0 then some s.info else none

-- Every relocation section changes an existing section that holds no relocations itself.
def targetsSound (symbolTable : Nat) (sections : List SectionHeader) : Bool :=
  sections.all fun s =>
    match target? symbolTable s with
    | none => true
    | some target => sections[target]?.any (!·.isRelocations)

-- The numbers of the relocation sections that change section `target`, in their order.
def chain (symbolTable : Nat) (sections : List SectionHeader) (target : Nat) : List Nat :=
  (sections.zipIdx.filter (target? symbolTable ·.1 = some target)).map Prod.snd

-- The relocation sections that belong to section `number`: all that change it, or, to a relocation
-- section itself, those that come after it in its chain. Number 0 ends a chain wherever it stands, and
-- since it can only come first, such a chain is empty.
def sectionsOf (symbolTable : Nat) (sections : List SectionHeader) (number : Nat) : List Nat :=
  match sections[number]?.bind (target? symbolTable) with
  | some target => (chain symbolTable sections target).filter (number < ·)
  | none =>
    let numbers := chain symbolTable sections number
    if 0 ∈ numbers then [] else numbers

-- The entries that belong to section `number`, in the order of the relocation sections.
def ofSection (f : Format) (file : Bytes) (symbolTable : Nat) (sections : List SectionHeader)
    (number : Nat) : List Relocation :=
  ((sectionsOf symbolTable sections number).filterMap (sections[·]?)).flatMap (entries f file)

end Relocation

namespace Image

-- Either finds every table that the file announces where it should be, or finds the file
-- unreadable. What is wrong with a single name or with the contents of a single section is kept in
-- the image, for whoever needs that name or those contents.
def read? (file : Bytes) : Option Image := do
  let header ← Header.read? file
  if !header.segmentsSound file then none
  let f := header.format
  let sections ← header.sections? file
  let names ←
    if sections.isEmpty then some none
    else do
      let strings ← sections[← header.nameSection? file]?
      if strings.type = typeNoBits then some none else NameTable.ofSection? strings file
  let (symbolTable, symbols) ← Symbol.table? f file sections typeSymbolTable
  let _ ← Symbol.table? f file sections typeDynamicSymbols
  if !Relocation.targetsSound symbolTable sections then none
  some {
    order := f.order
    symbolTable := symbols
    sections := sections.zipIdx.map fun (s, number) => {
      name := NameTable.name? names s.nameOffset
      isCode := s.type = typeProgramBits && s.flags / flagAllocated % 2 = 1 &&
        s.flags / flagExecutable % 2 = 1
      contents := s.contents? file
      relocations := Relocation.ofSection f file symbolTable sections number } }

-- All symbols, in the order of the table. What stands at the reserved number is no symbol, whatever
-- its fields say.
def symbols (image : Image) : List Symbol := image.symbolTable.drop 1

-- The first section with a given name, and its number.
def sectionNamed? (image : Image) (name : String) : Option (Section × Nat) :=
  image.sections.zipIdx.find? (·.1.name = some (Text.encode name))

end Image

end EbpfManager.Elf
