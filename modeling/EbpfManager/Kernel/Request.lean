import EbpfManager.Bytes
import EbpfManager.Handle
import EbpfManager.Kernel.CallError
import EbpfManager.MapKind
import EbpfManager.ProgramKind

namespace EbpfManager

-- What the kernel needs to create a map.
structure MapAttributes where
  name : String
  shape : MapShape
  -- A map like those that a map of maps will hold.
  innerFd : Option Fd
  deriving DecidableEq, Repr

-- What the kernel needs to load a program.
structure ProgramAttributes where
  name : String
  kind : ProgramKind
  code : Bytes
  license : String
  kernelVersion : UInt32
  deriving DecidableEq, Repr

-- What the kernel reports about a map. The kind is a bare number, since kernels know more kinds
-- than `MapKind`.
structure MapInfo where
  name : String
  kindNumber : Nat
  id : Nat
  keySize : UInt32
  valueSize : UInt32
  maxEntries : UInt32
  flags : UInt32
  deriving DecidableEq, Repr

-- What the kernel reports about a program.
structure ProgramInfo where
  name : String
  kindNumber : Nat
  id : Nat
  tag : Bytes
  jitedLength : Nat
  xlatedLength : Nat
  -- Nanoseconds since the system was started.
  loadTime : Nat
  gplCompatible : Bool
  mapIds : List Nat
  deriving DecidableEq, Repr

-- A buffer for the verifier's log: `written`, and zeros up to `size` octets.
structure LogBuffer where
  size : Nat
  written : Bytes
  deriving DecidableEq, Repr

namespace LogBuffer

def zeroed (size : Nat) : LogBuffer := ⟨size, []⟩

-- As much of `piece` as fits is written over the beginning.
def write (b : LogBuffer) (piece : Bytes) : LogBuffer :=
  let piece := piece.take b.size
  { b with written := piece ++ b.written.drop piece.length }

-- All octets of the buffer.
def contents (b : LogBuffer) : Bytes :=
  b.written ++ List.replicate (b.size - b.written.length) 0

end LogBuffer

-- How a write treats the entry that a key has or has not.
abbrev UpdateFlags := UInt64

namespace UpdateFlags

-- The entry may exist or not.
def any : UpdateFlags := 0

-- The entry must not exist.
def mustNotExist : UpdateFlags := 1

-- The entry must exist.
def mustExist : UpdateFlags := 2

end UpdateFlags

-- The calls, without their arguments.
inductive Call
  | mapCreate
  | mapLookup
  | mapUpdate
  | mapDelete
  | mapNextKey
  | programLoad
  | objectPin
  | objectGet
  | xdpAttach
  | interfaceIndex
  | programInfo
  | mapInfo
  | programFdById
  | mapFdById
  | close
  | possibleCpus
  deriving DecidableEq, Repr

-- The name of a call in messages: that of the system call, where it is one.
def Call.name : Call → String
  | mapCreate => "BPF_MAP_CREATE"
  | mapLookup => "BPF_MAP_LOOKUP_ELEM"
  | mapUpdate => "BPF_MAP_UPDATE_ELEM"
  | mapDelete => "BPF_MAP_DELETE_ELEM"
  | mapNextKey => "BPF_MAP_GET_NEXT_KEY"
  | programLoad => "BPF_PROG_LOAD"
  | objectPin => "BPF_OBJ_PIN"
  | objectGet => "BPF_OBJ_GET"
  | xdpAttach => "BPF_LINK_CREATE"
  | interfaceIndex => "if_nametoindex"
  | programInfo | mapInfo => "BPF_OBJ_GET_INFO_BY_FD"
  | programFdById => "BPF_PROG_GET_FD_BY_ID"
  | mapFdById => "BPF_MAP_GET_FD_BY_ID"
  | close => "close"
  | possibleCpus => "possible_cpus"

-- A call with its arguments.
inductive Request
  | mapCreate (attributes : MapAttributes)
  -- `valueSize` is the room for the value: for all processors together, where each has one.
  | mapLookup (fd : Fd) (key : Bytes) (valueSize : Nat)
  | mapUpdate (fd : Fd) (key value : Bytes) (flags : UpdateFlags)
  | mapDelete (fd : Fd) (key : Bytes)
  -- The key after `key`, or the first key.
  | mapNextKey (fd : Fd) (key : Option Bytes) (keySize : Nat)
  -- The verifier writes its log into the buffer, if there is one.
  | programLoad (attributes : ProgramAttributes) (log : Option LogBuffer)
  | objectPin (fd : Fd) (path : Path)
  | objectGet (path : Path)
  -- Attaches a program to an interface; closing the link detaches it.
  | xdpAttach (fd : Fd) (interface : Nat) (flags : UInt32)
  | interfaceIndex (name : String)
  | programInfo (fd : Fd)
  | mapInfo (fd : Fd)
  | programFdById (id : Nat)
  | mapFdById (id : Nat)
  | close (fd : Fd)
  | possibleCpus
  deriving DecidableEq, Repr

namespace Request

def call : Request → Call
  | mapCreate .. => .mapCreate
  | mapLookup .. => .mapLookup
  | mapUpdate .. => .mapUpdate
  | mapDelete .. => .mapDelete
  | mapNextKey .. => .mapNextKey
  | programLoad .. => .programLoad
  | objectPin .. => .objectPin
  | objectGet .. => .objectGet
  | xdpAttach .. => .xdpAttach
  | interfaceIndex .. => .interfaceIndex
  | programInfo .. => .programInfo
  | mapInfo .. => .mapInfo
  | programFdById .. => .programFdById
  | mapFdById .. => .mapFdById
  | close .. => .close
  | possibleCpus => .possibleCpus

-- The handle that a call is about, for the calls that are about one.
def fd? : Request → Option Fd
  | mapLookup fd .. | mapUpdate fd .. | mapDelete fd .. | mapNextKey fd .. | objectPin fd ..
  | xdpAttach fd .. | programInfo fd | mapInfo fd | close fd => some fd
  | _ => none

-- What the answer to a request is. Loading a program returns the log buffer, too.
abbrev Reply : Request → Type
  | mapCreate .. => Except CallError Fd
  | mapLookup .. => Except CallError Bytes
  | mapUpdate .. => Except CallError Unit
  | mapDelete .. => Except CallError Unit
  | mapNextKey .. => Except CallError (Option Bytes)
  | programLoad .. => Except CallError Fd × Option LogBuffer
  | objectPin .. => Except CallError Unit
  | objectGet .. => Except CallError Fd
  | xdpAttach .. => Except CallError Fd
  | interfaceIndex .. => Option Nat
  | programInfo .. => Except CallError ProgramInfo
  | mapInfo .. => Except CallError MapInfo
  | programFdById .. => Except CallError Fd
  | mapFdById .. => Except CallError Fd
  | close .. => Except CallError Unit
  | possibleCpus => Except CallError Nat

-- The answer that says nothing but that a call failed.
def failed (error : CallError) : (r : Request) → r.Reply
  | mapCreate .. | mapLookup .. | mapUpdate .. | mapDelete .. | mapNextKey .. | objectPin ..
  | objectGet .. | xdpAttach .. | programInfo .. | mapInfo .. | programFdById .. | mapFdById ..
  | close .. | possibleCpus => .error error
  | programLoad _ log => (.error error, log)
  | interfaceIndex .. => none

end Request

end EbpfManager
