import EbpfManager.Syscall.Call

namespace EbpfManager.Syscall

-- The octets of a field.
def field (block : Bytes) (start width : Nat) : Bytes := (block.drop start).take width

-- The number in a field.
def number (block : Bytes) (start width : Nat) : Nat := Bytes.toNat (field block start width)

-- Octets of the block about a program.
def programBlockSize : Nat := 104

-- Where such a block has the number of maps.
def mapCountStart : Nat := 52

-- How many maps a block says that the program has.
def mapCount (block : Bytes) : Nat := number block mapCountStart 4

-- An empty block that announces room for the numbers of maps.
def programBlock (room : Nat) : Bytes :=
  Bytes.patch (List.replicate programBlockSize 0) mapCountStart (word room)

-- What a block says about a program.
def readProgramBlock (block : Bytes) (mapIds : List Nat) : ProgramInfo where
  kindNumber := number block 0 4
  id := number block 4 4
  tag := field block 8 8
  jitedLength := number block 16 4
  xlatedLength := number block 20 4
  loadTime := number block 40 8
  name := Text.ofPadded (field block 64 nameSize)
  gplCompatible := number block 84 4 % 2 = 1
  mapIds

-- Octets of the block about a map.
def mapBlockSize : Nat := 64

-- What a block says about a map.
def readMapBlock (block : Bytes) : MapInfo where
  kindNumber := number block 0 4
  id := number block 4 4
  keySize := .ofNat (number block 8 4)
  valueSize := .ofNat (number block 12 4)
  maxEntries := .ofNat (number block 16 4)
  flags := .ofNat (number block 20 4)
  name := Text.ofPadded (field block 24 nameSize)

end EbpfManager.Syscall
