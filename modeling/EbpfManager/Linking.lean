import EbpfManager.Map.Basic
import EbpfManager.Object.Definition

namespace EbpfManager

namespace Linking

-- The first half of the 64-bit load at an octet, if there is room for both halves.
def loadAt? (code : Bytes) (start : Nat) : Option Instruction :=
  ((code.slice? start (2 * Instruction.size)).bind Instruction.ofBytes?).filter
    (·.code = Instruction.loadImmediate64)

-- The load with a map's handle in it.
def resolve (i : Instruction) (fd : Fd) : Instruction :=
  { i.setSource Instruction.mapHandleMark with immediate := fd }

-- Octet positions have to stay below this.
def positionLimit : Nat := Bytes.limit 8

-- `code` with the handle of the map that a load names.
def link (program : String) (maps : Table String Map) (code : Bytes) (l : MapLoad) :
    Except Error Bytes :=
  match (maps.get? l.map).bind (·.handle.fd?) with
  | none => .error (.unresolvedReference program l.map)
  | some fd =>
    let start := l.index * Instruction.size
    if positionLimit ≤ start + 2 * Instruction.size then .error .sizeOverflow
    else match loadAt? code start with
      | none => .error (.format (.notALoad program l.index))
      | some i => .ok (code.patch start (resolve i fd).toBytes)

end Linking

-- The code of a definition, with the handles of the maps it loads. The first load that cannot be
-- resolved decides the error.
def ProgramDefinition.relocate (d : ProgramDefinition) (maps : Table String Map) :
    Except Error Bytes :=
  d.loads.foldlM (Linking.link d.name maps) d.code

end EbpfManager
