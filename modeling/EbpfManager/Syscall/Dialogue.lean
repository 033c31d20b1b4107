import EbpfManager.Syscall.ReportBlock

namespace EbpfManager

-- What comes back from a system call.
structure SyscallReply where
  -- What is written to the value, the next key, the log or the report.
  output : Bytes := []
  -- What is written to the memory for the numbers of maps.
  mapIds : Option (List Nat) := none
  errno : Option Errno := none
  -- The result of a call that does not fail.
  result : Fd := 0
  deriving DecidableEq, Repr

namespace SyscallReply

-- What was written to memory that was zero before.
def written (r : SyscallReply) (size : Nat) : Bytes :=
  Bytes.overlay (List.replicate size 0) r.output

-- The numbers in memory that was zero before and had room for `room` of them.
def writtenIds (r : SyscallReply) (room count : Nat) : List Nat :=
  let ids := (r.mapIds.getD []).take (min room count)
  ids ++ List.replicate (min room count - ids.length) 0

end SyscallReply

-- A run of system calls with the replies they get.
structure Dialogue where
  -- The replies to the calls to come. Calls beyond them succeed without writing anything.
  replies : List SyscallReply
  -- The calls so far and their replies.
  calls : List (Syscall × SyscallReply) := []
  deriving Repr

namespace Dialogue

-- The reply to a call.
def submit (d : Dialogue) (call : Syscall) : SyscallReply × Dialogue :=
  let reply := d.replies.head?.getD {}
  (reply, ⟨d.replies.tail, d.calls ++ [(call, reply)]⟩)

-- What a call comes to: what is read off the reply, unless the call fails.
def ask {α : Type} (d : Dialogue) (call : Syscall) (read : SyscallReply → α) :
    Except CallError α × Dialogue :=
  let (reply, d) := d.submit call
  match reply.errno with
  | some number => (.error (.errno number), d)
  | none => (.ok (read reply), d)

-- A text with a zero in it cannot be handed over.
def passable (text : String) : Bool := (Text.terminated? text).isSome

-- A call about a name or a path.
def askAbout {α : Type} (d : Dialogue) (text : String) (call : Syscall)
    (read : SyscallReply → α) : Except CallError α × Dialogue :=
  if passable text then d.ask call read else (.error .interiorZero, d)

def mapNextKey (d : Dialogue) (fd : Fd) (key : Option Bytes) (keySize : Nat) :
    Except CallError (Option Bytes) × Dialogue :=
  match d.ask (.mapNextKey fd key) (·.written keySize) with
  | (.error cause, d) =>
    (if cause.errno? = some Errno.noEntry then .ok none else .error cause, d)
  | (.ok key, d) => (.ok (some key), d)

-- The log is written whether the call succeeds or not.
def programLoad (d : Dialogue) (a : ProgramAttributes) (log : Option LogBuffer) :
    (Except CallError Fd × Option LogBuffer) × Dialogue :=
  if a.code = [] ∨ a.code.length % Instruction.size ≠ 0 then
    ((.error (.errno Errno.invalid), log), d)
  else if !passable a.name || !passable a.license then
    ((.error .interiorZero, log), d)
  else
    let (reply, d) := d.submit (.programLoad a ((log.map LogBuffer.size).getD 0))
    let log := log.map (·.write reply.output)
    match reply.errno with
    | some number => ((.error (.errno number), log), d)
    | none => ((.ok reply.result, log), d)

-- This takes two calls, since only the first one tells how many maps there are. No more numbers are
-- taken than both calls speak of.
def programInfo (d : Dialogue) (fd : Fd) : Except CallError ProgramInfo × Dialogue :=
  match d.ask (.infoByFd fd Syscall.programBlockSize 0) (·.written Syscall.programBlockSize) with
  | (.error cause, d) => (.error cause, d)
  | (.ok block, d) =>
    let room := Syscall.mapCount block
    if room = 0 then (.ok (Syscall.readProgramBlock block []), d)
    else
      d.ask (.infoByFd fd Syscall.programBlockSize room) fun reply =>
        let block := Bytes.overlay (Syscall.programBlock room) reply.output
        Syscall.readProgramBlock block (reply.writtenIds room (Syscall.mapCount block))

-- The answer to a request. Interfaces, handles and processors are not asked for in this way: here
-- there are none of them.
def answer (d : Dialogue) : (r : Request) → r.Reply × Dialogue
  | .mapCreate a => d.askAbout a.name (.mapCreate a) (·.result)
  | .mapLookup fd key valueSize => d.ask (.mapLookup fd key) (·.written valueSize)
  | .mapUpdate fd key value flags => d.ask (.mapUpdate fd key value flags) fun _ => ()
  | .mapDelete fd key => d.ask (.mapDelete fd key) fun _ => ()
  | .mapNextKey fd key keySize => d.mapNextKey fd key keySize
  | .programLoad a log => d.programLoad a log
  | .objectPin fd path => d.askAbout path.text (.objectPin fd path) fun _ => ()
  | .objectGet path => d.askAbout path.text (.objectGet path) (·.result)
  | .xdpAttach fd interface flags => d.ask (.linkCreate fd interface flags) (·.result)
  | .interfaceIndex _ => (none, d)
  | .programInfo fd => d.programInfo fd
  | .mapInfo fd => d.ask (.infoByFd fd Syscall.mapBlockSize 0) fun reply =>
      Syscall.readMapBlock (reply.written Syscall.mapBlockSize)
  | .programFdById id => d.ask (.programFdById id) (·.result)
  | .mapFdById id => d.ask (.mapFdById id) (·.result)
  | .close _ => (.error (.errno Errno.badHandle), d)
  | .possibleCpus => (.error (.errno Errno.noEntry), d)

end Dialogue

end EbpfManager
