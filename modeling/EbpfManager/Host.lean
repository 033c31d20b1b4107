import EbpfManager.Error
import EbpfManager.Kernel.Machine

namespace EbpfManager

-- What a call reports instead of what the machine says.
structure InfoPatch where
  name : Option String := none
  kindNumber : Option Nat := none
  id : Option Nat := none
  keySize : Option UInt32 := none
  valueSize : Option UInt32 := none
  maxEntries : Option UInt32 := none
  flags : Option UInt32 := none
  mapIds : Option (List Nat) := none
  deriving DecidableEq, Repr

namespace InfoPatch

def applyToMap (p : InfoPatch) (i : MapInfo) : MapInfo where
  name := p.name.getD i.name
  kindNumber := p.kindNumber.getD i.kindNumber
  id := p.id.getD i.id
  keySize := p.keySize.getD i.keySize
  valueSize := p.valueSize.getD i.valueSize
  maxEntries := p.maxEntries.getD i.maxEntries
  flags := p.flags.getD i.flags

-- Of a program only the name, the kind and the maps can be changed.
def applyToProgram (p : InfoPatch) (i : ProgramInfo) : ProgramInfo :=
  { i with
    name := p.name.getD i.name
    kindNumber := p.kindNumber.getD i.kindNumber
    mapIds := p.mapIds.getD i.mapIds }

end InfoPatch

-- Something that goes wrong on purpose: `times` calls after the first `skip`.
structure Fault where
  call : Call
  -- Only calls about this handle, if there is one.
  fd : Option Fd := none
  skip : Nat := 0
  times : Nat := 1
  -- The call fails with this number.
  errno : Option Errno := none
  -- The number of processors or the index of the interface.
  result : Option Nat := none
  -- What the verifier's log begins with.
  log : Bytes := []
  patch : InfoPatch := {}
  deriving DecidableEq, Repr

namespace Fault

def Matches (f : Fault) (r : Request) : Prop :=
  f.call = r.call ∧ (f.fd = none ∨ f.fd = r.fd?)

instance (f : Fault) (r : Request) : Decidable (f.Matches r) :=
  inferInstanceAs (Decidable (_ ∧ _))

-- The fault that a request meets, and the faults that are left: the first that matches either
-- lets the request pass and counts it, or applies and is used up.
def select (r : Request) : List Fault → Option Fault × List Fault
  | [] => (none, [])
  | f :: rest =>
    if f.Matches r then
      if 0 < f.skip then (none, { f with skip := f.skip - 1 } :: rest)
      else (some f, if f.times ≤ 1 then rest else { f with times := f.times - 1 } :: rest)
    else
      let (found, rest) := select r rest
      (found, f :: rest)

-- The answer to a request that meets a fault. The log is written before anything fails.
def answer (f : Fault) (m : Machine) (r : Request) : r.Reply × Machine :=
  match r with
  | .interfaceIndex _ => (f.result, m)
  | .programLoad attributes log =>
    let log := log.map (·.write f.log)
    match f.errno with
    | some number => ((.error (.errno number), log), m)
    | none => m.programLoad attributes log
  | r =>
    match f.errno with
    | some number => (r.failed (.errno number), m)
    | none =>
      match r, m.answer r with
      | .possibleCpus, (reply, m) => ((f.result.map .ok).getD reply, m)
      | .mapInfo _, (reply, m) => (f.patch.applyToMap <$> reply, m)
      | .programInfo _, (reply, m) => (f.patch.applyToProgram <$> reply, m)
      | _, answer => answer

end Fault

-- A request and the answer it got.
structure CallRecord where
  request : Request
  reply : request.Reply

inductive LogLevel
  | debug
  | info
  | warn
  deriving DecidableEq, Repr

structure LogRecord where
  level : LogLevel
  text : String
  deriving DecidableEq, Repr

-- A machine with a list of all requests and their answers, which can be told to let certain calls
-- fail or report something else.
structure Host where
  machine : Machine := {}
  faults : List Fault := []
  -- All requests so far, in order.
  calls : List CallRecord := []
  log : List LogRecord := []

namespace Host

-- The answer to a request, and the host after it.
def perform (h : Host) (r : Request) : r.Reply × Host :=
  let (fault?, faults) := Fault.select r h.faults
  let (reply, machine) := match fault? with
    | none => h.machine.answer r
    | some fault => fault.answer h.machine r
  (reply, { h with machine, faults, calls := h.calls ++ [⟨r, reply⟩] })

def note (h : Host) (level : LogLevel) (text : String) : Host :=
  { h with log := h.log ++ [⟨level, text⟩] }

theorem perform_of_faults_eq_nil {h : Host} (r : Request) (hf : h.faults = []) :
    h.perform r = ((h.machine.answer r).1,
      { h with machine := (h.machine.answer r).2, calls := h.calls ++ [⟨r, (h.machine.answer r).1⟩] }) := by
  simp [perform, hf, Fault.select]

end Host

-- Work on a host that may fail. What it did before it failed stays done.
abbrev Attempt := EStateM Error Host

namespace Attempt

instance : MonadLift (Except Error) Attempt where
  monadLift
    | .ok a => pure a
    | .error e => throw e

def perform (r : Request) : Attempt r.Reply := fun h =>
  let (reply, h) := h.perform r
  .ok reply h

def note (level : LogLevel) (text : String) : Attempt Unit :=
  modify (·.note level text)

def debug (text : String) : Attempt Unit := note .debug text

-- What comes of work, and the host after it.
def outcome {α : Type} (work : Attempt α) (h : Host) : Except Error α × Host :=
  match work h with
  | .ok a h => (.ok a, h)
  | .error e h => (.error e, h)

-- Work that is followed by `clean` if it fails.
def orElseClean {α : Type} (work : Attempt α) (clean : Host → Host) : Attempt α := fun h =>
  match work h with
  | .ok a h => .ok a h
  | .error e h => .error e (clean h)

-- The value of an answer; what went wrong becomes an error.
def accept {ε α : Type} (wrap : ε → Error) : Except ε α → Attempt α
  | .ok a => pure a
  | .error cause => throw (wrap cause)

-- A file system call: it changes the tree or says why it cannot.
def files (wrap : CallError → Error)
    (work : Files.Tree → Except CallError Files.Tree) : Attempt Unit := do
  let tree ← accept wrap (work (← get).machine.files)
  modify fun h => { h with machine := { h.machine with files := tree } }

end Attempt

-- Work on a host and on an object of it that may fail.
abbrev Edit (ο : Type) := EStateM Error (ο × Host)

namespace Edit

variable {ο : Type}

instance : MonadLift Attempt (Edit ο) where
  monadLift work := fun (object, h) =>
    match work h with
    | .ok a h => .ok a (object, h)
    | .error e h => .error e (object, h)

-- What comes of work, and the object and the host after it.
def outcome {α : Type} (work : Edit ο α) (object : ο) (h : Host) : Except Error α × ο × Host :=
  match work (object, h) with
  | .ok a s => (.ok a, s)
  | .error e s => (.error e, s)

-- The object as it is now.
def object : Edit ο ο := fun s => .ok s.1 s

-- Changes the object and nothing else.
def change (f : ο → ο) : Edit ο Unit := fun s => .ok () (f s.1, s.2)

end Edit

end EbpfManager
