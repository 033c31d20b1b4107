import EbpfManager.Bytes
import EbpfManager.Text.Numeral

namespace EbpfManager

-- Why an object file, or a definition read from one, cannot be used.
inductive FormatError
  -- The file is no ELF file, or one of its tables is not where it should be.
  | unreadable
  | badSection (sectionName : String)
  | badLicense (contents : Bytes)
  | badKernelVersion (contents : Bytes)
  | truncatedMap (name : String) (size : Nat)
  | unknownMapKind (name : String) (number : Nat)
  | missingInnerMap (name : String)
  | badPinPath (name : String)
  | badCode (name : String) (size : Nat)
  | unknownSymbol (sectionName : String) (offset : Nat)
  | unsupportedRelocation (sectionName : String) (offset : Nat)
  | notALoad (program : String) (index : Nat)
  -- An address that the file leads to does not fit into 64 bits.
  | addressOverflow
  deriving DecidableEq, Repr

namespace FormatError

def message : FormatError → String
  | unreadable => "error parsing ELF data"
  | badSection sectionName => s!"error reading section `{sectionName}`"
  | badLicense contents => s!"invalid license `{Text.byteList contents}`"
  | badKernelVersion contents => s!"invalid kernel version `{Text.byteList contents}`"
  | truncatedMap name size => s!"map definition `{name}` is truncated ({size} bytes)"
  | unknownMapKind name number => s!"unknown map type {number} for map `{name}`"
  | missingInnerMap name => s!"map `{name}` is a map-in-map but has no inner map definition"
  | badPinPath name => s!"invalid persistent path for map `{name}`"
  | badCode name size => s!"program `{name}` is {size} bytes, not a whole number of instructions"
  | unknownSymbol sectionName offset =>
    s!"relocation at {Text.hex offset} in section `{sectionName}` references an unknown symbol"
  | unsupportedRelocation sectionName offset =>
    s!"relocation at {Text.hex offset} in section `{sectionName}` does not target a map"
  | notALoad program index =>
    s!"relocation in program `{program}` targets instruction {index}, " ++
      "which is not a 64-bit immediate load"
  | addressOverflow => "an address does not fit into 64 bits"

end FormatError

end EbpfManager
