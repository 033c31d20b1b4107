import EbpfManager.Session.Run

namespace EbpfManager

-- What one command did. The order in which the handles of a collection are closed means nothing,
-- nor does the order of the warnings about them: runs of such records are in a fixed order.
structure Report where
  outcome : Outcome
  openHandles : Nat
  calls : List CallRecord
  log : List LogRecord

namespace Report

variable {α : Type} (counts : α → Bool) (le : α → α → Bool)

-- `a` goes into the run that a list begins with.
def insertInRun (a : α) : List α → List α
  | [] => [a]
  | b :: rest => if counts b && !le a b then b :: insertInRun a rest else a :: b :: rest

-- Each run of elements that count is put in order.
def sortRuns : List α → List α
  | [] => []
  | a :: rest => if counts a then insertInRun counts le a (sortRuns rest) else a :: sortRuns rest

-- The handle that a request closes.
def closed? (r : CallRecord) : Option Fd :=
  match r.request with
  | .close fd => some fd
  | _ => none

def sortCalls (calls : List CallRecord) : List CallRecord :=
  sortRuns (fun r => (closed? r).isSome)
    (fun a b => (closed? a).getD 0 ≤ (closed? b).getD 0) calls

def sortLog (log : List LogRecord) : List LogRecord :=
  sortRuns (fun r => r.level = .warn) (fun a b => a.text ≤ b.text) log

end Report

-- One command with its report. Records of earlier commands are given up.
def Session.step (s : Session) (command : Command) : Report × Session :=
  let (outcome, s) := { s with host.calls := [], host.log := [] }.run command
  ({ outcome
     openHandles := s.host.machine.openHandles
     calls := Report.sortCalls s.host.calls
     log := Report.sortLog s.host.log }, s)

end EbpfManager
