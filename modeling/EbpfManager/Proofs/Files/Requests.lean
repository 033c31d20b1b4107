import EbpfManager.Host
import EbpfManager.Proofs.Endings
import EbpfManager.Proofs.Files.Ways
import EbpfManager.Proofs.Kernel.Calls

namespace EbpfManager

def Request.Pins (r : Request) : Prop :=
  ∃ fd path, r = .objectPin fd path

theorem Request.pins_of_call {r : Request} (h : r.call = .objectPin) : r.Pins := by
  cases r <;> cases h
  case objectPin fd path => exact ⟨fd, path, rfl⟩

theorem Machine.answer_files {m : Machine} {r : Request} (hr : ¬r.Pins) : (m.answer r).2.files = m.files :=
  (m.frame r).files fun h => hr (Request.pins_of_call h)

theorem Fault.answer_files {f : Fault} {m : Machine} {r : Request} (hr : ¬r.Pins) :
    (f.answer m r).2.files = m.files := by
  -- A call can fail instead of being answered, or be answered with something else reported.
  have ha := Machine.answer_files (m := m) hr
  cases r
  case interfaceIndex => rfl
  case programLoad =>
    simp only [Fault.answer]
    split
    case h_1 => rfl
    case h_2 => exact Machine.answer_files (r := .programLoad ..) nofun
  all_goals
    simp only [Fault.answer]
    split
    case h_1 => rfl
    case h_2 => exact ha

variable {h : Host} {fail : Error → Host → Prop}

theorem Host.perform_files {r : Request} (hr : ¬r.Pins) :
    (h.perform r).2.machine.files = h.machine.files := by
  simp only [perform]
  split
  case h_1 => exact Machine.answer_files hr
  case h_2 => exact Fault.answer_files hr

theorem ends_perform_files {r : Request} (hr : ¬r.Pins) :
    Ends (Attempt.perform r) h (fun _ h' => h'.machine.files = h.machine.files) fail :=
  ends_perform.mpr <| Host.perform_files hr

-- A file is created only if the call succeeds.
def Files.Tree.Pinned (t : Tree) (path : Path) (reply : Except CallError Unit) (t' : Tree) : Prop :=
  match reply with
  | .ok _    => t.create path = .ok t'
  | .error _ => t' = t

theorem Machine.answer_pinned (m : Machine) (fd : Fd) (path : Path) :
    m.files.Pinned path (m.answer (.objectPin fd path)).1 (m.answer (.objectPin fd path)).2.files := by
  simp only [answer]
  cases h : m.objectPin fd path
  case ok answer =>
    obtain ⟨_, pinned⟩ := answer
    obtain ⟨object, files, _, hf, he⟩ := objectPin_eq_ok h
    cases he
    exact hf
  case error => rfl

theorem Fault.answer_pinned (f : Fault) (m : Machine) (fd : Fd) (path : Path) :
    m.files.Pinned path (f.answer m (.objectPin fd path)).1
      (f.answer m (.objectPin fd path)).2.files := by
  simp only [answer]
  cases f.errno
  case none => exact m.answer_pinned fd path
  case some => rfl

theorem ends_objectPin_files {fd : Fd} {path : Path} :
    Ends (Attempt.perform (.objectPin fd path)) h
      (fun reply h' => h.machine.files.Pinned path reply h'.machine.files) fail := by
  rw [ends_perform]
  simp only [Host.perform]
  cases (Fault.select (.objectPin fd path) h.faults).1
  case none => exact h.machine.answer_pinned fd path
  case some f => exact f.answer_pinned h.machine fd path

end EbpfManager
