import EbpfManager.Proofs.Handles.Maps
import EbpfManager.Session.Run

namespace EbpfManager

open Attempt

variable {h₀ h : Host} {rest : Multiset Holding}

def Attachment.held (a : Option Attachment) : Multiset Holding :=
  match a with
  | none   => 0
  | some a => {(a.link, .link)}

@[simp] theorem Attachment.held_none : Attachment.held none = 0 := rfl

@[simp] theorem Attachment.held_some (a : Attachment) :
    Attachment.held (some a) = {(a.link, .link)} := rfl

namespace Program

variable {p : Program} {fd : Fd}

def held (p : Program) : Multiset Holding :=
  Attachment.held p.attachment + p.handle.held .program

theorem mem_held (hp : p.handle = .live fd) : (fd, HandleKind.program) ∈ p.held + rest := by
  simp [held, hp]

theorem ends_liveFd {ok : Fd → Host → Prop} {fail : Error → Host → Prop}
    (ho : ∀ fd, p.handle = .live fd → ok fd h) (hf : ∀ e, fail e h) :
    Ends (liftM p.liveFd : Attempt Fd) h ok fail := by
  cases hp : p.handle <;> simp [liveFd, hp, ho, hf]

theorem dropLink_holds (hh : h₀.Holds h (p.held + rest)) :
    h₀.Holds (p.dropLink h) (p.handle.held .program + rest) := by
  simp only [held] at hh
  cases ha : p.attachment <;> simp only [ha, dropLink, Attachment.held_none, Attachment.held_some,
    zero_add, Multiset.singleton_add, Multiset.cons_add] at hh ⊢
  case none => exact hh
  case some a =>
    obtain ⟨hr, hc⟩ := hh.close
    split <;> simp_all

theorem drop_holds (hh : h₀.Holds h (p.held + rest)) : h₀.Holds (p.drop h) rest := by
  have hl := dropLink_holds hh
  cases hp : p.handle <;> simp only [hp, drop, Handle.fd?, Handle.held_unset, Handle.held_closed,
    Handle.held_live, zero_add, Multiset.singleton_add] at hl ⊢
  case unset | closed => exact hl
  case live fd =>
    obtain ⟨hr, hc⟩ := hl.close
    split <;> simp_all

theorem submit_holds (hh : h₀.Holds h rest) :
    Ends p.submit h (fun fd h => h₀.Holds h ((fd, .program) ::ₘ rest)) fun _ h => h₀.Holds h rest := by
  simp only [submit, ends_bind]
  refine hh.ends_programLoad.imp_ok ?_
  rintro ⟨reply, log⟩ h hh
  cases reply
  case ok fd => exact hh
  case error cause =>
    simp only [ends_ite, ends_throw]
    refine ⟨fun _ => hh, fun _ => ⟨fun _ => hh, fun _ => ?_⟩⟩
    simp only [submitLogged, ends_bind]
    have hh : h₀.Holds h rest := hh
    refine hh.ends_programLoad.imp_ok ?_
    rintro ⟨reply, log⟩ h hh
    cases reply <;> simpa using hh

theorem load_owns : Maintains (h₀.Owns held rest) load := by
  rintro ⟨p, h⟩ hh
  simp only [load, ends_bind, ends_object]
  split
  case h_1 | h_2 | h_3 => exact hh
  case h_4 hs =>
    have hp : p.handle = .unset := by
      simp only [state] at hs
      split at hs <;> simp_all
      split at hs <;> cases hs
    simp only [ends_bind, ends_lift, ends_change, ends_debug]
    have hh : h₀.Holds h (p.held + rest) := hh
    refine (submit_holds hh).imp_ok ?_
    intro fd h hh
    simpa [Host.Owns, held, hp, add_comm, add_left_comm] using hh

theorem attachWith_owns {iface : String} {flags : XdpFlags} :
    Maintains (h₀.Owns held rest) (attachWith iface flags) := by
  rintro ⟨p, h⟩ hh
  simp only [attachWith, ends_bind, ends_object, ends_lift]
  refine ends_liveFd (fun fd hp => ?_) fun _ => hh
  cases ha : p.attachment
  case some => exact hh
  case none =>
    simp only [ends_bind, ends_ite, ends_throw]
    refine ⟨fun _ => hh, fun _ => ?_⟩
    simp only [ends_lift]
    refine (hh.ends_ask (r := .interfaceIndex iface) (fun _ h => by cases h) (fun _ h => by cases h)
      rfl).imp_ok ?_
    intro interface h hh
    split
    case h_1 => exact hh
    case h_2 interface =>
      simp only [ends_bind, ends_lift]
      have hh : h₀.Holds h (p.held + rest) := hh
      refine (hh.ends_xdpAttach (mem_held hp)).imp_ok ?_
      intro reply h hh
      cases reply
      case error => exact hh
      case ok link => simpa [Host.Owns, held, ha] using hh

theorem attach_owns {iface : String} : Maintains (h₀.Owns held rest) (attach iface) := by
  rintro ⟨p, h⟩ hh
  simp only [attach, ends_bind, ends_object]
  exact attachWith_owns (p, h) hh

-- Closing the link does not fail.
theorem detach_holds (hh : h₀.Holds h (p.held + rest)) :
    Ends detach (p, h)
      (fun _ s => s.1 = { p with attachment := none } ∧ h₀.Holds s.2 (p.handle.held .program + rest))
      fun _ s => s = (p, h) ∧ p.attachment = none := by
  simp only [detach, ends_bind, ends_object]
  cases ha : p.attachment
  case none => exact ⟨rfl, rfl⟩
  case some a =>
    simp only [held, ha, Attachment.held_some, Multiset.singleton_add, Multiset.cons_add] at hh
    simp only [ends_bind, ends_change, ends_lift]
    refine hh.ends_close.imp_ok ?_
    rintro reply h ⟨hr, hh⟩
    simpa [hr] using hh

theorem detach_owns : Maintains (h₀.Owns held rest) detach := by
  rintro ⟨p, h⟩ hh
  refine (detach_holds hh).imp ?_ ?_
  case refine_1 =>
    rintro _ ⟨p', h⟩ ⟨hp, hh⟩
    cases hp
    simpa [Host.Owns, held] using hh
  case refine_2 =>
    rintro _ s ⟨hs, _⟩
    exact hs ▸ hh

theorem pin_owns {path : Path} : Maintains (h₀.Owns held rest) (pin path) := by
  rintro ⟨p, h⟩ hh
  simp only [pin, ends_bind, ends_object, ends_lift]
  refine ends_liveFd (fun fd hp => ?_) fun _ => hh
  refine (hh.ends_objectPin (mem_held hp)).imp_ok ?_
  intro reply h hh
  cases reply <;> simpa [Host.Owns, held] using hh

theorem unpin_owns : Maintains (h₀.Owns held rest) unpin := by
  rintro ⟨p, h⟩ hh
  simp only [unpin, ends_bind, ends_object]
  split
  case h_1 => exact hh
  case h_2 path _ =>
    simp only [ends_bind, ends_lift, ends_files, ends_change, ends_debug]
    split
    case h_1 files _ => exact Host.holds_note.mpr <| hh.setFiles files
    case h_2 => exact hh

-- What is left of closing a program once it has no link.
theorem closeHandle_holds (hh : h₀.Holds h (p.handle.held .program + rest)) {fail} :
    Ends (do
      Edit.change ({ · with handle := .closed })
      match p.handle.fd? with
      | none => return
      | some fd =>
        accept (.syscall .close) (← perform (.close fd))
        debug s!"closed program `{p.name}` (fd {fd})" : Edit Program Unit)
      ({ p with attachment := none }, h)
      (fun _ s => s.1 = { p with attachment := none, handle := .closed } ∧ h₀.Holds s.2 rest)
      fail := by
  simp only [ends_bind, ends_change]
  cases hp : p.handle <;> simp only [hp, Handle.held_unset, Handle.held_closed, Handle.held_live,
    zero_add, Multiset.singleton_add, Handle.fd?] at hh ⊢
  case unset | closed => exact ⟨rfl, hh⟩
  case live fd =>
    simp only [ends_bind, ends_lift]
    refine hh.ends_close.imp_ok ?_
    rintro reply h ⟨hr, hh⟩
    simpa [hr] using hh

-- A program can be closed unless it is closed already.
theorem close_holds (hh : h₀.Holds h (p.held + rest)) :
    Ends close (p, h)
      (fun _ s => s.1 = { p with attachment := none, handle := .closed } ∧ h₀.Holds s.2 rest)
      fun _ s => s = (p, h) ∧ p.handle = .closed := by
  simp only [close, ends_bind, ends_object, ends_ite, ends_throw]
  refine ⟨fun hc => ⟨trivial, hc⟩, fun _ => ⟨fun ha => ?_, fun ha => ?_⟩⟩
  case refine_1 =>
    refine (detach_holds hh).imp ?_ ?_
    case refine_1 =>
      rintro _ ⟨p', h⟩ ⟨hp, hh⟩
      cases hp
      exact closeHandle_holds hh
    case refine_2 =>
      rintro _ s ⟨_, hn⟩
      simp [hn] at ha
  case refine_2 =>
    have hn : p.attachment = none := by simpa using ha
    have hp : (p, h) = ({ p with attachment := none }, h) := by simp [← hn]
    rw [hp]
    exact closeHandle_holds (by simpa [held, hn] using hh)

theorem close_owns : Maintains (h₀.Owns held rest) close := by
  rintro ⟨p, h⟩ hh
  refine (close_holds hh).imp ?_ ?_
  case refine_1 =>
    rintro _ ⟨p', h⟩ ⟨hp, hh⟩
    cases hp
    simpa [Host.Owns, held] using hh
  case refine_2 =>
    rintro _ s ⟨hs, _⟩
    exact hs ▸ hh

-- Attached programs are loaded.
def Attachable (p : Program) : Prop :=
  p.attachment.isSome → ∃ fd, p.handle = .live fd

-- `p'` is `p` after some work.
structure Follows (p p' : Program) : Prop where
  attachable : p.Attachable → p'.Attachable
  closed     : p.handle = .closed → p'.handle = .closed

theorem load_follows : Ends load (p, h) (fun _ s => p.Follows s.1) fun _ s => p.Follows s.1 := by
  simp only [load, ends_bind, ends_object]
  split
  case h_1 | h_2 | h_3 => exact ⟨id, id⟩
  case h_4 hs =>
    have hc : p.handle ≠ .closed := fun hc => by simp [state, hc] at hs
    simp only [ends_bind, ends_lift]
    exact .of_forall (fun fd _ => ⟨fun _ _ => ⟨fd, rfl⟩, fun h => absurd h hc⟩) fun _ _ => ⟨id, id⟩

theorem attachWith_attachable {iface : String} {flags : XdpFlags} :
    Maintains (fun s => s.1.Attachable) (attachWith iface flags) := by
  rintro ⟨p, h⟩ ha
  simp only [attachWith, ends_bind, ends_object, ends_lift]
  refine ends_liveFd (fun fd hp => ?_) fun _ => ha
  cases p.attachment
  case some => exact ha
  case none =>
    simp only [ends_bind, ends_ite, ends_throw]
    refine ⟨fun _ => ha, fun _ => ?_⟩
    simp only [ends_lift]
    refine .of_forall (fun interface h => ?_) fun _ _ => ha
    split
    case h_1 => exact ha
    case h_2 =>
      simp only [ends_bind, ends_lift]
      refine .of_forall (fun reply h => .of_forall (fun link h => ?_) fun _ _ => ha) fun _ _ => ha
      exact fun _ => ⟨fd, hp⟩

theorem attach_attachable {iface : String} :
    Maintains (fun s => s.1.Attachable) (attach iface) := by
  rintro ⟨p, h⟩ ha
  simp only [attach, ends_bind, ends_object]
  exact attachWith_attachable (p, h) ha

-- Even if the link cannot be closed, the program has none any more.
theorem detach_detached : Ends detach (p, h) (fun _ s => s.1.attachment = none) fun _ s => s.1.attachment = none := by
  simp only [detach, ends_bind, ends_object]
  split
  case h_1 ha => exact ha
  case h_2 =>
    simp only [ends_bind, ends_change, ends_lift]
    exact .of_forall (fun _ _ => .of_forall (fun _ _ => trivial) fun _ _ => trivial) fun _ _ => trivial

theorem attachable_of_detached (hn : p.attachment = none) : p.Attachable :=
  fun ha => by simp [hn] at ha

theorem detach_attachable : Maintains (fun s => s.1.Attachable) detach :=
  fun _ _ => detach_detached.imp (fun _ _ => attachable_of_detached) fun _ _ => attachable_of_detached

theorem close_attachable : Maintains (fun s => s.1.Attachable) close := by
  rintro ⟨p, h⟩ ha
  -- What is left to do once there is no link.
  have rest {p' : Program} {h : Host} (hn : p'.attachment = none) : Ends (do
      Edit.change ({ · with handle := .closed })
      match p.handle.fd? with
      | none => return
      | some fd =>
        accept (.syscall .close) (← perform (.close fd))
        debug s!"closed program `{p.name}` (fd {fd})" : Edit Program Unit)
      (p', h) (fun _ s => s.1.Attachable) fun _ s => s.1.Attachable := by
    have hn : { p' with handle := .closed }.Attachable := attachable_of_detached hn
    simp only [ends_bind, ends_change]
    split
    case h_1 => exact hn
    case h_2 =>
      simp only [ends_bind, ends_lift]
      exact .of_forall (fun _ _ => .of_forall (fun _ _ => hn) fun _ _ => hn) fun _ _ => hn
  simp only [close, ends_bind, ends_object, ends_ite, ends_throw]
  refine ⟨fun _ => ha, fun _ => ⟨fun _ => ?_, fun hn => rest (by simpa using hn)⟩⟩
  exact detach_detached.imp (fun _ s hn => rest hn) fun _ _ => attachable_of_detached

end Program

namespace ProgramCommand

open Program (held)

theorem run_owns {c : ProgramCommand} : Maintains (h₀.Owns held rest) c.run := by
  cases c
  case load          => exact Program.load_owns.bind fun _ _ => id
  case attach _ flags =>
    cases flags
    case none => exact Program.attach_owns.bind fun _ _ => id
    case some => exact Program.attachWith_owns.bind fun _ _ => id
  case detach        => exact Program.detach_owns.bind fun _ _ => id
  case pin           => exact Program.pin_owns.bind fun _ _ => id
  case unpin         => exact Program.unpin_owns.bind fun _ _ => id
  case close         => exact Program.close_owns.bind fun _ _ => id
  case state         => exact fun _ hh => hh

theorem run_attachable {c : ProgramCommand} : Maintains (fun s => s.1.Attachable) c.run := by
  rintro ⟨p, h⟩ ha
  cases c
  case load =>
    exact ends_bind.mpr <| Program.load_follows.imp (fun _ _ f => f.attachable ha)
      fun _ _ f => f.attachable ha
  case detach => exact ends_bind.mpr <| Program.detach_attachable (p, h) ha
  case close  => exact ends_bind.mpr <| Program.close_attachable (p, h) ha
  case state  => exact ha
  case attach _ flags =>
    cases flags
    case none => exact ends_bind.mpr <| Program.attach_attachable (p, h) ha
    case some => exact ends_bind.mpr <| Program.attachWith_attachable (p, h) ha
  case pin =>
    simp only [run, Program.pin, ends_bind, ends_object, ends_lift]
    refine Program.ends_liveFd (fun fd hp => ?_) fun _ => ha
    exact .of_forall (fun _ _ => .of_forall (fun _ _ => ha) fun _ _ => ha) fun _ _ => ha
  case unpin =>
    simp only [run, Program.unpin, ends_bind, ends_object]
    split
    case h_1 => exact ha
    case h_2 =>
      simp only [ends_bind, ends_lift, ends_files, ends_change, ends_debug, ends_pure]
      split <;> exact ha

-- A program that is closed stays closed.
theorem run_closed {c : ProgramCommand} : Maintains (fun s => s.1.handle = .closed) c.run := by
  rintro ⟨p, h⟩ hp
  cases c
  case load =>
    exact ends_bind.mpr <| Program.load_follows.imp (fun _ _ f => f.closed hp)
      fun _ _ f => f.closed hp
  case attach _ flags =>
    cases flags <;>
      simp only [run, Program.attach, Program.attachWith, ends_bind, ends_object, ends_lift]
    case none | some => exact Program.ends_liveFd (fun _ hl => by cases hp.symm.trans hl) fun _ => hp
  case pin =>
    simp only [run, Program.pin, ends_bind, ends_object, ends_lift]
    exact Program.ends_liveFd (fun _ hl => by cases hp.symm.trans hl) fun _ => hp
  case close =>
    simp only [run, Program.close, ends_bind, ends_object, ends_ite, ends_throw]
    exact ⟨fun _ => hp, fun hn => absurd hp hn⟩
  case unpin =>
    simp only [run, Program.unpin, ends_bind, ends_object]
    split
    case h_1 => exact hp
    case h_2 =>
      simp only [ends_bind, ends_lift, ends_files, ends_change, ends_debug, ends_pure]
      split <;> exact hp
  case detach =>
    simp only [run, Program.detach, ends_bind, ends_object]
    split
    case h_1 => exact hp
    case h_2 =>
      simp only [ends_bind, ends_lift, ends_change]
      exact .of_forall (fun _ _ => .of_forall (fun _ _ => hp) fun _ _ => hp) fun _ _ => hp
  case state => exact hp

end ProgramCommand

end EbpfManager
