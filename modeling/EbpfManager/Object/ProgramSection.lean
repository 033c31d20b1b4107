import EbpfManager.Instruction
import EbpfManager.Object.MapRecords

namespace EbpfManager.Object

open Elf

-- The name of a program that has only a section's name to go by: letters and digits of ASCII and
-- dots are kept.
def nameFromSection (sectionName : String) : String :=
  String.ofList (sectionName.toList.map fun c => if c.isAlphanum ∨ c = '.' then c else '_')

-- A section of programs, and what reading them takes from the rest of the file.
structure ProgramSection where
  number : Nat
  name : String
  kind : ProgramKind
  license : String
  contents : Bytes
  relocations : List Relocation
  deriving Repr

namespace ProgramSection

-- The parts of the section that are programs. Every function symbol is one; a section without any
-- is one program as a whole.
def programRanges (s : ProgramSection) (image : Image) : Except FormatError (List Range) := do
  match ← ranges image.symbols s.number s.contents.length (some .function) with
  | [] => .ok [⟨0, s.contents.length, nameFromSection s.name⟩]
  | ranges => .ok ranges

-- The code in a range: at least one instruction, whole instructions only, all inside the
-- section.
def codeIn (s : ProgramSection) (r : Range) : Except FormatError Bytes :=
  if r.length = 0 ∨ r.length % Instruction.size ≠ 0 ∨ s.contents.length < r.stop then
    .error (.badCode r.name r.length)
  else .ok ((s.contents.drop r.start).take r.length)

-- The load that a relocation stands for, and the position of its program among `ranges`. An addend
-- in place is the immediate of the instruction.
def loadOf (s : ProgramSection) (image : Image) (mapsNumber : Option Nat)
    (records : List MapRecord) (ranges : List Range) (r : Relocation) :
    Except FormatError (Nat × MapLoad) := do
  let unsupported := FormatError.unsupportedRelocation s.name r.offset
  match ranges.zipIdx.find? (·.1.Contains r.offset) with
  | none => .error unsupported
  | some (range, position) =>
    let inPlace := ((s.contents.slice? (r.offset + 4) 4).map image.order.toInt).getD 0
    let target ← target image s.name r inPlace
    if some target.number ≠ mapsNumber then .error unsupported
    else match records.find? (·.offset = target.address) with
      | none => .error unsupported
      | some record =>
        .ok (position, ⟨(r.offset - range.start) / Instruction.size, record.definition.name⟩)

-- The loads of the program at `position`, by instruction.
def loadsAt (loads : List (Nat × MapLoad)) (position : Nat) : List MapLoad :=
  (loads.filterMap fun (owner, load) => if owner = position then some load else none).mergeSort
    (·.index ≤ ·.index)

-- The programs of the section, by address.
def programs (s : ProgramSection) (image : Image) (mapsNumber : Option Nat)
    (records : List MapRecord) : Except FormatError (List ProgramDefinition) := do
  let ranges ← s.programRanges image
  let codes ← ranges.mapM s.codeIn
  let loads ← s.relocations.mapM (s.loadOf image mapsNumber records ranges)
  .ok ((ranges.zip codes).zipIdx.map fun ((range, code), position) => {
    name := range.name
    kind := s.kind
    sectionName := s.name
    license := s.license
    code
    loads := loadsAt loads position })

end ProgramSection

end EbpfManager.Object
