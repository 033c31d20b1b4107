import EbpfManager.Proofs.Handles.Others
import EbpfManager.Proofs.Handles.Programs
import EbpfManager.Proofs.Handles.Snapshots
import Mathlib.Logic.Relation

namespace EbpfManager

open Relation

variable {p p' : Program} {h h' : Host} {rest : Multiset Holding}

inductive ProgramState.Moves : ProgramState → ProgramState → Prop
  | load                       : Moves .unloaded .loaded
  | attach                     : Moves .loaded .attached
  | detach                     : Moves .attached .loaded
  | close (s : ProgramState) : Moves s .closed

theorem ProgramState.closed_of_moves {s s' : ProgramState} (m : ReflTransGen Moves s s') (hs : s = .closed) :
    s' = .closed := by
  induction m
  case refl         => exact hs
  case tail st ih => cases ih ▸ st; rfl

namespace Program

theorem state_eq_unloaded_iff : p.state = .unloaded ↔ p.handle = .unset := by
  unfold state
  cases p.handle <;> cases p.attachment <;> simp

theorem state_eq_loaded_iff : p.state = .loaded ↔ (∃ fd, p.handle = .live fd) ∧ p.attachment = none := by
  unfold state
  cases p.handle <;> cases p.attachment <;> simp

theorem state_eq_attached_iff :
    p.state = .attached ↔ (∃ fd, p.handle = .live fd) ∧ p.attachment.isSome := by
  unfold state
  cases p.handle <;> cases p.attachment <;> simp

theorem state_eq_closed_iff : p.state = .closed ↔ p.handle = .closed := by
  unfold state
  cases p.handle <;> cases p.attachment <;> simp

theorem state_of_live {fd : Fd} (hp : p.handle = .live fd) : p.state = .loaded ∨ p.state = .attached := by
  cases ha : p.attachment
  case none   => exact .inl <| state_eq_loaded_iff.mpr ⟨⟨fd, hp⟩, ha⟩
  case some a => exact .inr <| state_eq_attached_iff.mpr ⟨⟨fd, hp⟩, by simp [ha]⟩

end Program

namespace ProgramCommand

-- What a call to a program comes to when it succeeds: when it can, and what the program is then.
def Does (c : ProgramCommand) (p p' : Program) : Prop :=
  match c with
  | .load          => p.state = .unloaded ∧ ∃ fd, p' = { p with handle := .live fd }
  | .attach iface _ => p.state = .loaded ∧ p.kind = .xdp ∧
      ∃ a : Attachment, a.iface = iface ∧ p' = { p with attachment := some a }
  | .detach        => p.state = .attached ∧ p' = { p with attachment := none }
  | .pin path      => (p.state = .loaded ∨ p.state = .attached) ∧ p' = { p with pinPath := some path }
  | .unpin         => p.pinPath ≠ none ∧ p' = { p with pinPath := none }
  | .close         => p.state ≠ .closed ∧ p' = { p with attachment := none, handle := .closed }
  | .state         => p' = p

-- What is said to a call to a closed program. Pins can still be removed.
def refusal? (p : Program) : ProgramCommand → Option Error
  | .load | .attach .. | .pin _ | .close => some (.alreadyClosed p.name)
  | .detach                              => some (.notAttached p.name)
  | .unpin | .state                      => none

end ProgramCommand

namespace Program

theorem load_does : Ends load (p, h) (fun _ s => ProgramCommand.load.Does p s.1) fun _ s => s.1 = p := by
  simp only [load, ends_bind, ends_object]
  split
  case h_1 | h_2 | h_3 => trivial
  case h_4 hs =>
    simp only [ends_bind, ends_lift]
    exact .of_forall (fun fd _ => ⟨hs, fd, rfl⟩) fun _ _ => trivial

theorem attachWith_does (iface : String) (flags : XdpFlags) (flags' : Option XdpFlags) :
    Ends (attachWith iface flags) (p, h) (fun _ s => (ProgramCommand.attach iface flags').Does p s.1)
      fun _ s => s.1 = p := by
  simp only [attachWith, ends_bind, ends_object, ends_lift]
  refine ends_liveFd (fun fd hp => ?_) fun _ => trivial
  cases ha : p.attachment
  case some => trivial
  case none =>
    simp only [ends_bind, ends_ite, ends_throw]
    refine ⟨fun _ => trivial, fun hk => ?_⟩
    simp only [ends_lift]
    refine .of_forall (fun interface h => ?_) fun _ _ => trivial
    split
    case h_1 => trivial
    case h_2 interface =>
      simp only [ends_bind, ends_lift]
      refine .of_forall (fun reply h => .of_forall (fun link h => ?_) fun _ _ => trivial) fun _ _ => trivial
      exact ⟨state_eq_loaded_iff.mpr ⟨⟨fd, hp⟩, ha⟩, not_not.mp hk, ⟨iface, interface, link⟩, rfl, rfl⟩

theorem attach_does (iface : String) (flags : Option XdpFlags) :
    Ends (attach iface) (p, h) (fun _ s => (ProgramCommand.attach iface flags).Does p s.1)
      fun _ s => s.1 = p := by
  simp only [attach, ends_bind, ends_object]
  exact attachWith_does ..

-- The link that is given up is open, so that this cannot fail halfway.
theorem detach_does (b : h.Harbors p.held) (ha : p.Attachable) :
    Ends detach (p, h) (fun _ s => ProgramCommand.detach.Does p s.1) fun _ s => s.1 = p := by
  obtain ⟨rest, hh⟩ := b.holds
  cases hn : p.attachment
  case none =>
    simp only [detach, ends_bind, ends_object, hn]
    trivial
  case some a =>
    have hs : p.attachment.isSome := by simp [hn]
    exact (detach_holds hh).imp (fun _ _ d => ⟨state_eq_attached_iff.mpr ⟨ha hs, hs⟩, d.left⟩)
      fun _ _ d => congrArg Prod.fst d.left

theorem pin_does {path : Path} :
    Ends (pin path) (p, h) (fun _ s => (ProgramCommand.pin path).Does p s.1) fun _ s => s.1 = p := by
  simp only [pin, ends_bind, ends_object, ends_lift]
  refine ends_liveFd (fun fd hp => ?_) fun _ => trivial
  exact .of_forall (fun _ _ => .of_forall (fun _ _ => ⟨state_of_live hp, rfl⟩) fun _ _ => trivial)
    fun _ _ => trivial

theorem unpin_does :
    Ends unpin (p, h) (fun _ s => ProgramCommand.unpin.Does p s.1) fun _ s => s.1 = p := by
  simp only [unpin, ends_bind, ends_object]
  split
  case h_1 => trivial
  case h_2 path hp =>
    simp only [ends_bind, ends_lift, ends_files, ends_change, ends_debug]
    split
    case h_1 => exact ⟨by simp [hp], rfl⟩
    case h_2 => trivial

theorem close_does (b : h.Harbors p.held) :
    Ends close (p, h) (fun _ s => ProgramCommand.close.Does p s.1) fun _ s => s.1 = p := by
  obtain ⟨rest, hh⟩ := b.holds
  by_cases hc : p.handle = .closed
  case pos =>
    simp only [close, ends_bind, ends_object, ends_ite, ends_throw]
    exact ⟨fun _ => trivial, fun hn => absurd hc hn⟩
  case neg =>
    exact (close_holds hh).imp (fun _ _ d => ⟨fun hs => hc (state_eq_closed_iff.mp hs), d.left⟩)
      fun _ _ d => congrArg Prod.fst d.left

end Program

namespace ProgramCommand

variable {c : ProgramCommand}

-- One case for each call.
theorem run_does (b : h.Harbors p.held) (ha : p.Attachable) :
    Ends c.run (p, h) (fun _ s => c.Does p s.1) fun _ s => s.1 = p := by
  cases c
  case load          => exact ends_bind.mpr Program.load_does
  case attach iface flags =>
    cases flags
    case none       => exact ends_bind.mpr (Program.attach_does iface none)
    case some flags => exact ends_bind.mpr (Program.attachWith_does iface flags (some flags))
  case detach        => exact ends_bind.mpr (Program.detach_does b ha)
  case pin           => exact ends_bind.mpr Program.pin_does
  case unpin         => exact ends_bind.mpr Program.unpin_does
  case close         => exact ends_bind.mpr (Program.close_does b)
  case state         => exact rfl

theorem Does.moves (d : c.Does p p') (ha : p.Attachable) : ReflGen ProgramState.Moves p.state p'.state := by
  open Program in
  cases c
  case load =>
    obtain ⟨hs, fd, hp'⟩ := d
    have hn : p.attachment = none := by
      by_contra hn
      obtain ⟨_, hp⟩ := ha (Option.isSome_iff_ne_none.mpr hn)
      cases hp.symm.trans (state_eq_unloaded_iff.mp hs)
    rw [hs, state_eq_loaded_iff.mpr ⟨⟨fd, by rw [hp']⟩, by rw [hp', hn]⟩]
    exact .single .load
  case attach =>
    obtain ⟨hs, _, a, _, hp'⟩ := d
    obtain ⟨⟨fd, hp⟩, _⟩ := state_eq_loaded_iff.mp hs
    rw [hs, state_eq_attached_iff.mpr ⟨⟨fd, by rw [hp', hp]⟩, by rw [hp']; rfl⟩]
    exact .single .attach
  case detach =>
    obtain ⟨hs, hp'⟩ := d
    obtain ⟨⟨fd, hp⟩, _⟩ := state_eq_attached_iff.mp hs
    rw [hs, state_eq_loaded_iff.mpr ⟨⟨fd, by rw [hp', hp]⟩, by rw [hp']⟩]
    exact .single .detach
  case close =>
    obtain ⟨_, rfl⟩ := d
    exact .single (.close _)
  case pin | unpin =>
    obtain ⟨_, rfl⟩ := d
    exact .refl
  case state =>
    cases d
    exact .refl

-- A closed program says no without asking the kernel.
theorem run_refused {e : Error} (ha : p.Attachable) (hs : p.state = .closed) (hr : c.refusal? p = some e) :
    c.run.outcome p h = (.error e, p, h) := by
  have hp := Program.state_eq_closed_iff.mp hs
  have hn : p.attachment = none := by
    by_contra hn
    obtain ⟨_, hl⟩ := ha (Option.isSome_iff_ne_none.mpr hn)
    cases hp.symm.trans hl
  refine Ends.editOutcome_eq_error ?_
  cases c
  case load =>
    cases hr
    exact ends_bind.mpr (by simp [Program.load, hs])
  case attach _ flags =>
    cases hr
    cases flags <;> exact ends_bind.mpr (by simp [Program.attach, Program.attachWith, Program.liveFd, hp])
  case detach =>
    cases hr
    exact ends_bind.mpr (by simp [Program.detach, hn])
  case pin =>
    cases hr
    exact ends_bind.mpr (by simp [Program.pin, Program.liveFd, hp])
  case close =>
    cases hr
    exact ends_bind.mpr (by simp [Program.close, hp])
  case unpin | state => cases hr

end ProgramCommand

namespace Program

-- What can happen to a program and to its host: calls to the program, and whatever others do to the
-- kernel without closing its handles.
inductive Step : Program × Host → Program × Host → Prop
  | call (c : ProgramCommand) (p : Program) (h : Host) : Step (p, h) (c.run.outcome p h).2
  | info (p : Program) (h : Host) : Step (p, h) (p, ((Snapshot.ofProgram p).outcome h).2)
  | others {p : Program} {h h' : Host} : h.Leads (Request.Spares p.held) h' → Step (p, h) (p, h')

-- A program that is new, on a kernel on which anything may have happened.
structure New (p : Program) (h : Host) : Prop where
  reachable  : h.machine.Reachable
  faultless  : h.faults = []
  handle     : p.handle = .unset
  attachment : p.attachment = none

-- What is true of a program at all times.
structure Living (s : Program × Host) : Prop where
  harbors    : s.2.Harbors s.1.held
  attachable : s.1.Attachable

theorem New.living (n : New p h) : Living (p, h) where
  harbors := {
    faultless  := n.faultless
    consistent := n.reachable.consistent
    held       := by
      have h0 : p.held = 0 := by simp [held, n.handle, n.attachment]
      exact h0 ▸ Multiset.zero_le _ }
  attachable ha := by simp [n.attachment] at ha

namespace Living

variable {s s' : Program × Host} {c : ProgramCommand}

theorem does (l : Living (p, h)) : Ends c.run (p, h) (fun _ s => c.Does p s.1) fun _ s => s.1 = p :=
  c.run_does l.harbors l.attachable

theorem call (l : Living (p, h)) : Living (c.run.outcome p h).2 := by
  obtain ⟨rest, hh⟩ := l.harbors.holds
  have w := (ProgramCommand.run_owns (c := c) (p, h) hh).and (ProgramCommand.run_attachable (p, h) l.attachable)
  exact (w.imp (fun _ _ ⟨hh, ha⟩ => ⟨.of_holds hh, ha⟩) fun _ _ ⟨hh, ha⟩ =>
    ⟨.of_holds hh, ha⟩).of_editOutcome

theorem attached {a : Attachment} (l : Living (p, h)) (ha : p.attachment = some a) :
    p.state = .attached ∧ ∃ fd program link, p.handle = .live fd ∧
      h.machine.handles.get? fd = some (.program program) ∧
      h.machine.handles.get? a.link = some (.link link) := by
  obtain ⟨fd, hp⟩ : ∃ fd, p.handle = .live fd := l.attachable (by simp [ha])
  have hm : (fd, HandleKind.program) ∈ p.held := by simp [held, hp]
  have hm' : (a.link, HandleKind.link) ∈ p.held := by simp [held, ha]
  obtain ⟨object, hg, hk⟩ := l.harbors.get? hm
  obtain ⟨object', hg', hk'⟩ := l.harbors.get? hm'
  refine ⟨state_eq_attached_iff.mpr ⟨⟨fd, hp⟩, by simp [ha]⟩, fd, ?_⟩
  cases object <;> cases hk
  cases object' <;> cases hk'
  exact ⟨_, _, hp, hg, hg'⟩

-- What fails leaves the program as it is, and the handles that are open.
theorem call_error {e : Error} (l : Living (p, h)) (he : (c.run.outcome p h).1 = .error e) :
    (c.run.outcome p h).2.1 = p ∧ (c.run.outcome p h).2.2.machine.handles = h.machine.handles := by
  obtain ⟨rest, hh⟩ := l.harbors.holds
  obtain ⟨ho, hp⟩ := ((ProgramCommand.run_owns (c := c) (p, h) hh).and l.does).of_editOutcome_error he
  have ho : h.Holds (c.run.outcome p h).2.2 ((c.run.outcome p h).2.1.held + rest) := ho
  rw [hp] at ho
  exact ⟨hp, ho.handles_eq hh.consistent hh.becomes.held⟩

theorem info_holds (l : Living (p, h)) : ∃ rest, h.machine.held = p.held + rest ∧
    Ends (Snapshot.ofProgram p) h (fun i h' => h.Holds h' (i.held + (p.held + rest)) ∧ ∃ fd, p.handle = .live fd)
      fun _ h' => h.Holds h' (p.held + rest) := by
  obtain ⟨rest, hh⟩ := l.harbors.holds
  refine ⟨rest, hh.becomes.held, ?_⟩
  refine ends_bind.mpr <| ends_liveFd (fun fd hp => ?_) fun _ => hh
  exact (Snapshot.ofFd_holds hh).imp_ok fun _ _ hi => ⟨hi.right, fd, hp⟩

theorem step (l : Living s) (st : Step s s') :
    Living s' ∧ ReflGen ProgramState.Moves s.1.state s'.1.state := by
  cases st
  case call c p h =>
    refine ⟨l.call, ?_⟩
    cases he : (c.run.outcome p h).1
    case ok a    => exact (l.does.of_editOutcome_ok he).moves l.attachable
    case error e => rw [(l.call_error he).left]
  case info p h =>
    obtain ⟨rest, _, w⟩ := l.info_holds
    have w := ends_iff_outcome.mp w
    refine ⟨⟨?_, l.attachable⟩, .refl⟩
    split at w
    case h_1 hr =>
      rw [hr]
      exact .of_holds (add_left_comm _ _ rest ▸ w.left)
    case h_2 hr =>
      rw [hr]
      exact .of_holds w
  case others p h h' hl => exact ⟨⟨l.harbors.leads hl, l.attachable⟩, .refl⟩

theorem steps (l : Living s) (st : ReflTransGen Step s s') :
    Living s' ∧ ReflTransGen ProgramState.Moves s.1.state s'.1.state := by
  -- By induction on what happens.
  induction st
  case refl => exact ⟨l, .refl⟩
  case tail _ st ih =>
    obtain ⟨l', m⟩ := ih.left.step st
    exact ⟨l', ih.right.trans m.to_reflTransGen⟩

end Living

structure Lifecycle (p : Program) (h : Host) : Prop where
  -- Each call takes one step at most, and nothing else takes any.
  moves (c : ProgramCommand) : ReflGen ProgramState.Moves p.state (c.run.outcome p h).2.1.state
  history {s : Program × Host} : ReflTransGen Step (p, h) s →
    ReflTransGen ProgramState.Moves p.state s.1.state
  closed {s : Program × Host} : p.state = .closed → ReflTransGen Step (p, h) s → s.1.state = .closed
  -- A link is there only while the program is open, and both handles are what they should be.
  attached {a : Attachment} : p.attachment = some a → p.state = .attached ∧
    ∃ fd program link, p.handle = .live fd ∧ h.machine.handles.get? fd = some (.program program) ∧
      h.machine.handles.get? a.link = some (.link link)
  done {c : ProgramCommand} {answer : Answer} : (c.run.outcome p h).1 = .ok answer → c.Does p (c.run.outcome p h).2.1
  failed {c : ProgramCommand} {e : Error} : (c.run.outcome p h).1 = .error e →
    (c.run.outcome p h).2.1 = p ∧ (c.run.outcome p h).2.2.machine.handles = h.machine.handles
  refused {c : ProgramCommand} {e : Error} : p.state = .closed → c.refusal? p = some e →
    c.run.outcome p h = (.error e, p, h)
  -- Describing a program changes nothing about it.
  info_done {i : Snapshot} : ((Snapshot.ofProgram p).outcome h).1 = .ok i → p.state = .loaded ∨ p.state = .attached
  info_failed {e : Error} : ((Snapshot.ofProgram p).outcome h).1 = .error e →
    ((Snapshot.ofProgram p).outcome h).2.machine.handles = h.machine.handles
  info_refused : p.state = .closed →
    (Snapshot.ofProgram p).outcome h = (.error (.alreadyClosed p.name), h)

-- Whatever is asked of a program, in whatever order, and whatever others do to the kernel meanwhile: it is loaded
-- before it is attached, and once it is closed nothing can be done with it any more. What fails changes nothing.
theorem lifecycle {p₀ : Program} {h₀ : Host} (n : New p₀ h₀) (st : ReflTransGen Step (p₀, h₀) (p, h)) :
    Lifecycle p h := by
  have l : Living (p, h) := (n.living.steps st).left
  obtain ⟨rest, hr, w⟩ := l.info_holds
  exact {
    moves c := (l.step (.call c p h)).right
    history st := (l.steps st).right
    closed hs st := ProgramState.closed_of_moves (l.steps st).right hs
    attached ha := l.attached ha
    done := l.does.of_editOutcome_ok
    failed := l.call_error
    refused hs he := ProgramCommand.run_refused l.attachable hs he
    info_done hi := by
      obtain ⟨_, fd, hp⟩ := w.of_outcome_ok hi
      exact state_of_live hp
    info_failed he := (w.of_outcome_error he).handles_eq l.harbors.consistent hr
    info_refused hs := by
      simp [Snapshot.ofProgram, liveFd, state_eq_closed_iff.mp hs]
      rfl }

-- A program that was loaded and attached.
theorem lifecycle_of_attached :
    let pass : Program :=
      { name := "pass", kind := .xdp, license := "GPL", code := [0x95, 0, 0, 0, 0, 0, 0, 0], kernelVersion := 0 }
    let loaded := (ProgramCommand.load.run.outcome pass {}).2
    let attached := ((ProgramCommand.attach "lo" none).run.outcome loaded.1 loaded.2).2
    attached.1.state = .attached ∧ Lifecycle attached.1 attached.2 := by
  intro pass loaded attached
  have n : New pass {} := ⟨.start .empty, rfl, rfl, rfl⟩
  refine ⟨by decide +kernel, lifecycle n ?_⟩
  exact .tail (.tail .refl (.call .load pass {})) (.call (.attach "lo" none) loaded.1 loaded.2)

end Program

end EbpfManager
