import EbpfManager.Proofs.Entries.Sessions
import EbpfManager.Proofs.Kernel.Programs
import Mathlib.Logic.Relation

namespace EbpfManager

open Relation (ReflTransGen)

-- What may happen next: what is fair, or a report of a kind that is not known.
def Command.Tolerable (s : Session) : Command → Prop
  | .reportKind _ number => MapKind.ofNumber? number = none
  | c                    => c.Fair s

namespace Machine

variable {m m' m'' : Machine} {code : Bytes} {refs refs' : List Nat}

theorem Retains.refl (m : Machine) : m.Retains m where
  keeps    := .refl m
  shape hm := ⟨_, hm, rfl⟩

theorem Retains.trans (r : m.Retains m') (r' : m'.Retains m'') : m.Retains m'' where
  keeps    := r.keeps.trans r'.keeps
  shape hm := by
    obtain ⟨_, hm', he⟩ := r.shape hm
    obtain ⟨map'', hm'', he'⟩ := r'.shape hm'
    exact ⟨map'', hm'', he'.trans he⟩

-- What is referred to is there.
theorem Refers.has (r : m.Refers code refs) (c : m.Consistent) : ∀ id ∈ refs, m.Has (.map id) := by
  intro id hid
  obtain ⟨fd, _, ho⟩ := exists_of_mem_right r hid
  exact c.handle ho

theorem Refers.unique (r : m.Refers code refs) (r' : m.Refers code refs') : refs = refs' := by
  refine List.right_unique_forall₂' (fun fd id id' h h' => ?_) r r'
  cases h.symm.trans h'
  rfl

-- That a program is known under a number and uses those maps that its loads referred to.
structure Uses (m : Machine) (number : Nat) (refs : List Nat) : Prop where
  program : ∃ program, m.programs.get? number = some program ∧ program.mapIds = refs.eraseDups
  has     : ∀ id ∈ refs, m.Has (.map id)

theorem Uses.keeps {number : Nat} (u : m.Uses number refs) (k : m.Keeps m') : m'.Uses number refs := by
  obtain ⟨program, hp, he⟩ := u.program
  exact ⟨⟨program, k.program hp, he⟩, fun id hid => k.has (u.has id hid)⟩

end Machine

namespace Host

variable {h h' h'' : Host} {number : Nat} {refs : List Nat}

-- That on the way from one host to another a program is loaded, and what its loads refer to at that time.
def Loads (h : Host) (number : Nat) (refs : List Nat) (h' : Host) : Prop :=
  ∃ before a log fd log' after, h.Leads (fun _ => True) before ∧ before.machine.Refers a.code refs ∧
    before.perform (.programLoad a log) = ((.ok fd, log'), after) ∧
    after.machine.handles.get? fd = some (.program number) ∧ after.Leads (fun _ => True) h'

theorem Loads.trans (ld : h.Loads number refs h') (l : h'.Leads (fun _ => True) h'') : h.Loads number refs h'' := by
  obtain ⟨before, a, log, fd, log', after, hl, hr, he, ho, hl'⟩ := ld
  exact ⟨before, a, log, fd, log', after, hl, hr, he, ho, hl'.trans l⟩

-- What a program uses is known when it is loaded, and from then on.
theorem Loads.uses (ld : h.Loads number refs h') (o : h.Sane) : h'.machine.Uses number refs := by
  obtain ⟨before, a, log, fd, log', after, hl, hr, he, ho, hl'⟩ := ld
  have o₀ := hl.sane o
  have l₁ : before.Leads (fun _ => True) after := .of_perform trivial he
  have hp : before.machine.programLoad a log = ((.ok fd, log'), after.machine) := by
    have hm := o₀.machine (.programLoad a log)
    have hreply := o₀.reply (.programLoad a log)
    rw [he] at hm hreply
    exact Prod.ext hreply.symm hm.symm
  obtain ⟨number', program, refs', ho', hg, hr', hids⟩ := Machine.refers_of_programLoad hp
  cases ho.symm.trans ho'
  have k := hl'.keeps (l₁.sane o₀)
  exact ⟨⟨program, k.program hg, hr.unique hr' ▸ hids⟩,
    fun id hid => k.has ((l₁.keeps o₀).has (hr.has o₀.consistent id hid))⟩

-- By induction on what is asked of the kernel: a program that is new was loaded by the request.
theorem Leads.loads (l : h.Leads (fun _ => True) h') (hf : h.faults = [])
    (hn : h.machine.programs.get? number = none) (hp : h'.machine.programs.get? number ≠ none) :
    ∃ refs, h.Loads number refs h' := by
  induction l
  case refl => exact absurd hn hp
  case note level text _ ih =>
    obtain ⟨refs, ld⟩ := ih hp
    exact ⟨refs, ld.trans (.note level text .refl)⟩
  case files files _ ih =>
    obtain ⟨refs, ld⟩ := ih hp
    exact ⟨refs, ld.trans (.files files .refl)⟩
  case request h' r _ l ih =>
    by_cases hg : h'.machine.programs.get? number = none
    case neg =>
      obtain ⟨refs, ld⟩ := ih hg
      exact ⟨refs, ld.trans (.perform trivial)⟩
    case pos =>
      have he := perform_of_faults_eq_nil r (l.faultless hf)
      by_cases hr : r.call = .programLoad
      case neg =>
        rw [he] at hp
        exact absurd ((h'.machine.frame r).programs hr ▸ hg) hp
      case pos =>
        cases r <;> cases hr
        case programLoad a log =>
          obtain ⟨fd, log', m', hm, ho⟩ := Machine.program_of_programLoad hg
            (by simpa [he, Machine.answer] using hp)
          obtain ⟨_, _, refs, _, _, hr, _⟩ := Machine.refers_of_programLoad hm
          have hm' : h'.machine.answer (.programLoad a log) = ((.ok fd, log'), m') := hm
          rw [hm'] at he
          exact ⟨refs, h', a, log, fd, log', _, l, hr, he, ho, by rw [he]; exact .refl⟩

end Host

namespace Session

variable {s s' : Session} {c : Command} {number : Nat} {refs : List Nat}

def Next (s s' : Session) : Prop :=
  ∃ c : Command, c.Tolerable s ∧ (s.run c).2 = s'

def Later : Session → Session → Prop :=
  ReflTransGen Next

def Attained (s : Session) : Prop :=
  ∃ files, (fresh files).Later s

theorem tolerable_cases (hc : c.Tolerable s) :
    c.Fair s ∨ ∃ fd number, c = .reportKind fd number ∧ MapKind.ofNumber? number = none := by
  cases c
  case reportKind fd number => exact .inr ⟨fd, number, rfl, hc⟩
  all_goals exact .inl hc

-- One case for what is fair. Otherwise nothing but the kind that the kernel reports about a map is changed.
theorem next_cases (n : s.Next s') : (∃ c : Command, c.Fair s ∧ s' = (s.run c).2) ∨ s' = s ∨
    ∃ fd number machine, MapKind.ofNumber? number = none ∧ s.host.machine.reportKind fd number = .ok machine ∧
      s' = { s with host := { s.host with machine } } := by
  obtain ⟨c, hc, rfl⟩ := n
  obtain hc | ⟨fd, number, rfl, hn⟩ := tolerable_cases hc
  case inl => exact .inl ⟨c, hc, rfl⟩
  case inr =>
    refine .inr ?_
    cases hm : s.host.machine.reportKind fd number
    case error      => exact .inl (by simp [run, onMachine, hm])
    case ok machine => exact .inr ⟨fd, number, machine, hn, hm, by simp [run, onMachine, hm]⟩

theorem Settled.next (o : s.Settled) (n : s.Next s') : s'.Settled := by
  obtain ⟨c, hc, rfl⟩ | rfl | ⟨fd, number, machine, _, hm, rfl⟩ := next_cases n
  case inl => exact o.run hc
  case inr.inl => exact o
  case inr.inr =>
    have b := o.harbors.consistent.reportKind hm
    exact ⟨sound_host o.sound _, o.harbors.faultless, b.consistent, b.held ▸ o.harbors.held⟩

theorem Told.next (t : s.Told fun _ => True) (n : s.Next s') : s'.Told fun _ => True := by
  obtain ⟨c, hc, rfl⟩ | rfl | ⟨fd, number, machine, hn, hm, rfl⟩ := next_cases n
  case inl => exact t.run Map.declared_any hc fun _ _ _ => trivial
  case inr.inl => exact t
  case inr.inr =>
    have o := t.sane
    exact t.retained ⟨o.faultless, (o.consistent.reportKind hm).consistent, o.maps.reportKind hn hm⟩
      (Machine.retains_of_reportKind o.consistent hm)

theorem Next.retains (n : s.Next s') (o : s.host.Sane) : s.host.machine.Retains s'.host.machine := by
  obtain ⟨c, hc, rfl⟩ | rfl | ⟨fd, number, machine, _, hm, rfl⟩ := next_cases n
  case inl     => exact (leads_of_fair hc).retains o
  case inr.inl => exact .refl _
  case inr.inr => exact Machine.retains_of_reportKind o.consistent hm

-- What is true of a session on which everything is in order.
structure Sane (s : Session) : Prop where
  settled : s.Settled
  told    : s.Told fun _ => True

theorem Sane.next (o : s.Sane) (n : s.Next s') : s'.Sane :=
  ⟨o.settled.next n, o.told.next n⟩

theorem Sane.later (o : s.Sane) (st : s.Later s') : s'.Sane ∧ s.host.machine.Retains s'.host.machine := by
  induction st
  case refl            => exact ⟨o, .refl _⟩
  case tail _ n ih =>
    obtain ⟨o', r⟩ := ih
    exact ⟨o'.next n, r.trans (n.retains o'.told.sane)⟩

theorem Attained.sane (a : s.Attained) : s.Sane := by
  obtain ⟨files, st⟩ := a
  have o : (fresh files).Sane :=
    ⟨(Reached.fresh files).settled, (faithful_fresh files).told Map.declared_any⟩
  exact (o.later st).left

theorem Attained.later (a : s.Attained) (st : s.Later s') : s'.Attained := by
  obtain ⟨files, st'⟩ := a
  exact ⟨files, st'.trans st⟩

theorem Attained.run (hc : c.Tolerable s) (a : s.Attained) : (s.run c).2.Attained :=
  a.later (.single ⟨c, hc, rfl⟩)

-- That a program was loaded in the course of a run, under a number, and the maps that its loads referred to then.
inductive Loaded (number : Nat) (refs : List Nat) : Session → Prop
  | load {s : Session} {c : Command} : s.Attained → c.Tolerable s → s.host.Loads number refs (s.run c).2.host →
      Loaded number refs (s.run c).2
  | next {s s' : Session} : Loaded number refs s → s.Next s' → Loaded number refs s'

theorem Loaded.attained (ld : s.Loaded number refs) : s.Attained := by
  induction ld
  case load a hc _ => exact .run hc a
  case next n ih   => exact ih.later (.single n)

theorem Loaded.uses (ld : s.Loaded number refs) : s.host.machine.Uses number refs := by
  induction ld
  case load a hc ld  => exact ld.uses a.sane.told.sane
  case next ld n ih => exact ih.keeps (n.retains ld.attained.sane.told.sane).keeps

-- Every program was loaded at some time.
theorem Attained.loaded (a : s.Attained) (hp : s.host.machine.programs.get? number ≠ none) :
    ∃ refs, s.Loaded number refs := by
  obtain ⟨files, st⟩ := a
  induction st
  case refl => exact absurd rfl hp
  case tail s s' st n ih =>
    have a : s.Attained := ⟨files, st⟩
    by_cases hg : s.host.machine.programs.get? number = none
    case neg =>
      obtain ⟨refs, ld⟩ := ih hg
      exact ⟨refs, ld.next n⟩
    case pos =>
      obtain ⟨c, hc, rfl⟩ := n
      obtain hf | ⟨fd, kind, rfl, hn⟩ := tolerable_cases hc
      case inl =>
        obtain ⟨refs, ld⟩ := (leads_of_fair hf).loads a.sane.told.sane.faultless hg hp
        exact ⟨refs, .load a hc ld⟩
      case inr =>
        refine absurd ?_ hp
        simp only [Session.run, onMachine]
        split
        case h_1 => exact hg
        case h_2 machine hm =>
          obtain ⟨_, _, _, rfl⟩ := Machine.reportKind_eq_ok hm
          exact hg

end Session

end EbpfManager
