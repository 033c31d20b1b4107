import EbpfManager.Bytes
import EbpfManager.Files.Path
import EbpfManager.MapKind
import EbpfManager.ProgramKind

namespace EbpfManager

structure MapDefinition where
  name : String
  shape : MapShape
  -- The shape of the maps that a map of maps takes as values.
  inner : Option MapShape
  pinPath : Option Path
  deriving DecidableEq, Repr

-- An instruction that loads the address of a map.
structure MapLoad where
  -- The number of the instruction in its program.
  index : Nat
  map : String
  deriving DecidableEq, Repr

structure ProgramDefinition where
  name : String
  kind : ProgramKind
  sectionName : String
  license : String
  code : Bytes
  -- Ordered by instruction.
  loads : List MapLoad
  deriving DecidableEq, Repr

structure ObjectFile where
  license : String
  -- Nothing if the programs run on any kernel.
  kernelVersion : Option UInt32
  -- In the order of their records.
  maps : List MapDefinition
  -- By section, then by address.
  programs : List ProgramDefinition
  deriving DecidableEq, Repr

end EbpfManager
