import EbpfManager.Proofs.Handles.Others
import EbpfManager.Proofs.Requests.Sessions

namespace EbpfManager

-- What may happen next: a command to the session, or a request of somebody else.
def Command.Fair (s : Session) : Command → Prop
  | .request r => r.Spares s.held
  | c          => c.Genuine

theorem Command.Genuine.fair {c : Command} (hc : c.Genuine) (s : Session) : c.Fair s := by
  cases c
  case request => exact hc.plain.elim
  all_goals exact hc

namespace Session

variable {s : Session} {c : Command}

-- One case for requests of others; anything else is a command to the session.
theorem fair_cases (hc : c.Fair s) :
    (∃ r, c = .request r ∧ r.Spares s.held ∧ (s.run c).2 = { s with host := (s.host.perform r).2 }) ∨
      c.Genuine := by
  cases c
  case request r => exact .inl ⟨r, rfl, hc, rfl⟩
  all_goals exact .inr hc

theorem leads_of_fair (hc : c.Fair s) : s.host.Leads (fun _ => True) (s.run c).2.host := by
  obtain ⟨r, _, _, he⟩ | hg := fair_cases hc
  case inl => exact he ▸ .perform trivial
  case inr => exact run_leads hg

-- The handles of the session are open, among others.
structure Settled (s : Session) : Prop where
  sound   : s.Sound
  harbors : s.host.Harbors s.held

theorem Settled.run (o : s.Settled) (hc : c.Fair s) : (s.run c).2.Settled := by
  obtain ⟨r, _, hr, he⟩ | hg := fair_cases hc
  case inl =>
    rw [he]
    exact ⟨sound_host o.sound _, o.harbors.leads (.perform hr)⟩
  case inr =>
    obtain ⟨rest, hh⟩ := o.harbors.holds
    obtain ⟨hs, hh⟩ : Owned s.host rest (s.run c).2 := run_owned hg.plain ⟨o.sound, hh⟩
    exact ⟨hs, .of_holds hh⟩

inductive Reached : Session → Prop
  | fresh (files : Files.Tree) : Reached { host := { machine := { files } } }
  | run {s : Session} (c : Command) : c.Fair s → Reached s → Reached (s.run c).2

theorem Reached.settled (r : s.Reached) : s.Settled := by
  induction r
  case fresh files =>
    exact ⟨sound_new _, rfl, Machine.consistent_new files, Multiset.zero_le _⟩
  case run c hc _ ih => exact ih.run hc

end Session

end EbpfManager
