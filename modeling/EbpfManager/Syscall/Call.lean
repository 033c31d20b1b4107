import EbpfManager.Instruction
import EbpfManager.Kernel.Request
import EbpfManager.Text.Utf8

namespace EbpfManager

-- What the addresses in a block lead to.
inductive Memory
  | nothing
  -- A key; nothing for the null address.
  | key (key : Option Bytes)
  | entry (key value : Bytes)
  | program (code : List Instruction) (license : Bytes) (hasLog : Bool)
  | path (path : Bytes)
  -- A block for a report, which has room for the numbers of so many maps.
  | report (room : Nat)
  deriving DecidableEq, Repr

-- There is one system call with many commands. Each takes a block of attributes: fields of fixed
-- widths one behind the other, least significant octet first. Some fields are addresses of memory
-- that the kernel reads or writes; in a block here they are zero, and the memory stands beside the
-- block.
structure Syscall where
  command : Nat
  attributes : Bytes
  memory : Memory
  deriving DecidableEq, Repr

namespace Syscall

def word (n : Nat) : Bytes := Bytes.ofNat 4 n

def doubleWord (n : Nat) : Bytes := Bytes.ofNat 8 n

def handle (fd : Fd) : Bytes := Bytes.ofInt 4 fd

def address : Bytes := List.replicate 8 0

-- Octets of a name field. The last one is always zero.
def nameSize : Nat := 16

-- The beginning of a name, as much as there is room for.
def objectName (name : String) : Bytes :=
  Bytes.overlay (List.replicate nameSize 0) ((Text.encode name).take (nameSize - 1))

def mapCreate (a : MapAttributes) : Syscall where
  command := 0
  attributes := word a.shape.kind.number ++ word a.shape.keySize.toNat ++
    word a.shape.valueSize.toNat ++ word a.shape.maxEntries.toNat ++ word a.shape.flags.toNat ++
    handle (a.innerFd.getD 0) ++ word 0 ++ objectName a.name ++ word 0
  memory := .nothing

-- The block of the commands about one entry: the map, the key, the value or the next key.
def entryAttributes (fd : Fd) (flags : UpdateFlags) : Bytes :=
  handle fd ++ word 0 ++ address ++ address ++ doubleWord flags.toNat

def mapLookup (fd : Fd) (key : Bytes) : Syscall :=
  ⟨1, entryAttributes fd UpdateFlags.any, .key key⟩

def mapUpdate (fd : Fd) (key value : Bytes) (flags : UpdateFlags) : Syscall :=
  ⟨2, entryAttributes fd flags, .entry key value⟩

def mapDelete (fd : Fd) (key : Bytes) : Syscall :=
  ⟨3, entryAttributes fd UpdateFlags.any, .key key⟩

def mapNextKey (fd : Fd) (key : Option Bytes) : Syscall :=
  ⟨4, entryAttributes fd UpdateFlags.any, .key key⟩

-- The instructions that octets spell.
def instructions (code : Bytes) : List Instruction :=
  (Bytes.chunks Instruction.size code).filterMap Instruction.ofBytes?

-- The log is asked for only if there is room for it.
def programLoad (a : ProgramAttributes) (logSize : Nat) : Syscall :=
  let code := instructions a.code
  let logLevel := if logSize = 0 then 0 else 1
  { command := 5
    attributes := word a.kind.number ++ word code.length ++ address ++ address ++ word logLevel ++
      word logSize ++ address ++ word a.kernelVersion.toNat ++ word 0 ++ objectName a.name ++
      word 0 ++ word a.kind.expectedAttachType
    memory := .program code (Text.encode a.license) (logSize ≠ 0) }

def pathAttributes (fd : Fd) : Bytes := address ++ handle fd ++ word 0

def objectPin (fd : Fd) (path : Path) : Syscall :=
  ⟨6, pathAttributes fd, .path (Text.encode path.text)⟩

def objectGet (path : Path) : Syscall :=
  ⟨7, pathAttributes 0, .path (Text.encode path.text)⟩

def idAttributes (id : Nat) : Bytes := word id ++ word 0 ++ word 0

def programFdById (id : Nat) : Syscall := ⟨13, idAttributes id, .nothing⟩

def mapFdById (id : Nat) : Syscall := ⟨14, idAttributes id, .nothing⟩

-- Asks for a report of at most `size` octets.
def infoByFd (fd : Fd) (size room : Nat) : Syscall :=
  ⟨15, handle fd ++ word size ++ address, .report room⟩

def linkCreate (fd : Fd) (interface : Nat) (flags : UInt32) : Syscall :=
  ⟨28, handle fd ++ word interface ++ word ProgramKind.xdpAttachType ++ word flags.toNat, .nothing⟩

end Syscall

end EbpfManager
