import EbpfManager.Proofs.Handles.Host
import EbpfManager.Proofs.Requests.Asks

namespace EbpfManager

variable {held rest : Multiset Holding}

-- That a request closes none of the handles.
def Request.Spares (held : Multiset Holding) (r : Request) : Prop :=
  ∀ fd kind, r = .close fd → (fd, kind) ∉ held

theorem Machine.Consistent.answer_spares {m : Machine} {r : Request} (c : m.Consistent)
    (hr : r.Spares held) (hl : held ≤ m.held) : held ≤ (m.answer r).2.held := by
  by_cases hc : ∃ fd, r = .close fd
  case pos =>
    obtain ⟨fd, rfl⟩ := hc
    obtain hm | ⟨kind, hm, _⟩ := c.answer_close fd
    case inl => exact hm.symm ▸ hl
    case inr =>
      rw [hm] at hl
      exact (Multiset.le_cons_of_notMem (hr fd kind rfl)).mp hl
  case neg =>
    obtain ⟨_, hh, b⟩ := c.answer_le fun fd he => hc ⟨fd, he⟩
    exact hl.trans (b.held.symm ▸ hh)

namespace Host

variable {h h' h₀ : Host}

-- A host without faults on which all of the handles are open, among others.
structure Harbors (h : Host) (held : Multiset Holding) : Prop where
  faultless  : h.faults = []
  consistent : h.machine.Consistent
  held       : held ≤ h.machine.held

namespace Harbors

-- What is to come is counted from here on.
theorem holds (b : h.Harbors held) : ∃ rest, h.Holds h (held + rest) := by
  obtain ⟨rest, hr⟩ := Multiset.le_iff_exists_add.mp b.held
  exact ⟨rest, hr ▸ holds_refl b.consistent b.faultless⟩

theorem of_holds (hh : h₀.Holds h (held + rest)) : h.Harbors held where
  faultless  := hh.faultless
  consistent := hh.consistent
  held       := hh.becomes.held.symm ▸ Multiset.le_add_right ..

theorem leads (b : h.Harbors held) (l : h.Leads (Request.Spares held) h') : h'.Harbors held := by
  have k := l.keep (k := fun m => m.Consistent ∧ held ≤ m.held) b.faultless ?_ ?_ ⟨b.consistent, b.held⟩
  case refine_1 =>
    exact fun m r hr ⟨c, hl⟩ => ⟨(c.answer r).elim fun _ b => b.consistent, c.answer_spares hr hl⟩
  case refine_2 =>
    exact fun m files ⟨c, hl⟩ => ⟨(c.setFiles files).consistent, hl⟩
  exact ⟨l.faultless b.faultless, k.left, k.right⟩

theorem keeps {p : Request → Prop} (b : h.Harbors held) (l : h.Leads p h') : h.machine.Keeps h'.machine := by
  refine (l.keep (k := fun m => m.Consistent ∧ h.machine.Keeps m) b.faultless ?_ ?_ ⟨b.consistent, .refl _⟩).right
  case refine_1 =>
    exact fun m r _ ⟨c, k⟩ => (c.answer r).elim fun _ b => ⟨b.consistent, k.trans b.keeps⟩
  case refine_2 =>
    exact fun m files ⟨c, k⟩ => ⟨(c.setFiles files).consistent, k.trans (c.setFiles files).keeps⟩

theorem get? {fd : Fd} {kind : HandleKind} (b : h.Harbors held) (hm : (fd, kind) ∈ held) :
    ∃ object, h.machine.handles.get? fd = some object ∧ object.handleKind = kind :=
  (Machine.mem_held_iff b.consistent).mp (Multiset.mem_of_le b.held hm)

end Harbors

-- Work after which the same handles are held as before has closed and opened none on balance, and each
-- is open on what it was open on.
theorem Holds.handles_eq (hh : h.Holds h' held) (c : h.machine.Consistent)
    (he : h.machine.held = held) : h'.machine.handles = h.machine.handles :=
  (he.symm ▸ hh.becomes).handles_eq c

end Host

end EbpfManager
