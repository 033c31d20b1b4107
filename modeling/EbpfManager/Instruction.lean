import EbpfManager.Bytes

namespace EbpfManager

-- One instruction. The two register numbers share an octet, the destination in its lower half.
structure Instruction where
  code : UInt8
  registers : UInt8
  offset : Int
  immediate : Int
  deriving DecidableEq, Repr

namespace Instruction

-- Octets per instruction.
def size : Nat := 8

-- The code of the first half of a 64-bit immediate load.
def loadImmediate64 : UInt8 := 0x18

-- The source register that marks an immediate as a map's handle.
def mapHandleMark : UInt8 := 1

-- The code of the instruction that ends a program.
def exit : UInt8 := 0x95

def source (i : Instruction) : UInt8 := i.registers / 16

-- The lower half of `register` becomes the source register; the destination stays.
def setSource (i : Instruction) (register : UInt8) : Instruction :=
  { i with registers := i.registers % 16 + 16 * register }

-- The instruction at the beginning of `bs`, if there are enough octets for one.
def ofBytes? (bs : Bytes) : Option Instruction :=
  match bs with
  | code :: registers :: o₀ :: o₁ :: i₀ :: i₁ :: i₂ :: i₃ :: _ =>
    some ⟨code, registers, Bytes.toInt [o₀, o₁], Bytes.toInt [i₀, i₁, i₂, i₃]⟩
  | _ => none

def toBytes (i : Instruction) : Bytes :=
  i.code :: i.registers :: (Bytes.ofInt 2 i.offset ++ Bytes.ofInt 4 i.immediate)

@[simp] theorem length_toBytes (i : Instruction) : i.toBytes.length = size := by
  simp [toBytes, size]

end Instruction

end EbpfManager
