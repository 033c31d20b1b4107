import EbpfManager.Map.Creation
import EbpfManager.Proofs.Endings

namespace EbpfManager

open Attempt

variable {h : Host}

-- Only linking finds that a reference leads nowhere.
def Error.Unresolved (e : Error) : Prop :=
  ∃ program map, e = .unresolvedReference program map

namespace Map

variable {m : Map}

def Opened (m m' : Map) : Prop :=
  ∃ fd cpus, m' = { m with handle := .live fd, cpus }

theorem Opened.pinPath {m' : Map} (ho : m.Opened m') : m'.pinPath = m.pinPath := by
  obtain ⟨fd, cpus, he⟩ := ho
  rw [he]

theorem release_ends {fd : Fd} {ok : Unit → Host → Prop} {fail : Error → Host → Prop}
    (ho : ∀ h, ok () h) : Ends (release fd) h ok fail := by
  simp only [release, ends_bind, ends_pure]
  exact ends_perform_of_forall fun _ => ho

theorem countCpus_resolved :
    Ends m.countCpus h (fun _ _ => True) fun e _ => ¬e.Unresolved := by
  simp only [countCpus, ends_ite, ends_bind, ends_pure, implies_true, and_true]
  intro _
  refine ends_perform_of_forall fun reply h => ?_
  cases reply <;> simp [Error.Unresolved]

theorem infoOrRelease_resolved {wrap : CallError → Error} {fd : Fd}
    (hw : ∀ cause, ¬(wrap cause).Unresolved) :
    Ends (infoOrRelease wrap fd) h (fun _ _ => True) fun e _ => ¬e.Unresolved := by
  simp only [infoOrRelease, ends_bind]
  refine ends_perform_of_forall fun reply h => ?_
  cases reply
  case ok => trivial
  case error cause =>
    simp only [ends_bind, ends_throw]
    exact release_ends fun _ => hw cause

theorem createTemplate_resolved :
    Ends m.createTemplate h (fun _ _ => True) fun e _ => ¬e.Unresolved := by
  simp only [createTemplate, ends_ite, ends_pure, implies_true, and_true]
  intro _
  split
  case h_1 => simp [Error.Unresolved]
  case h_2 =>
    simp only [ends_bind]
    refine ends_perform_of_forall fun reply h => ?_
    cases reply <;> simp [Error.Unresolved]

theorem releaseTemplate_ends {template : Option Fd} {ok : Unit → Host → Prop}
    {fail : Error → Host → Prop} (ho : ∀ h, ok () h) :
    Ends (m.releaseTemplate template) h ok fail := by
  cases template
  case none => exact ho h
  case some fd =>
    simp only [releaseTemplate, ends_bind]
    refine ends_perform_of_forall fun reply h => ?_
    cases reply
    case ok => exact ho h
    case error => exact ho _

-- The template is released first, but its release cannot fail the work.
theorem createNew_opened :
    Ends createNew (m, h) (fun _ s => ∃ fd, s.1 = { m with handle := .live fd })
      fun e _ => ¬e.Unresolved := by
  simp only [createNew, ends_bind, ends_object, ends_lift]
  refine createTemplate_resolved.imp_ok fun template h _ => ?_
  refine ends_perform_of_forall fun reply h => releaseTemplate_ends fun h => ?_
  cases reply
  case ok fd => exact ⟨fd, rfl⟩
  case error => simp [Error.Unresolved]

theorem openPinned_opened {path : Path} :
    Ends (openPinned path) (m, h) (fun _ s => ∃ fd, s.1 = { m with handle := .live fd })
      fun e _ => ¬e.Unresolved := by
  simp only [openPinned, ends_bind, ends_object, ends_lift]
  refine ends_perform_of_forall fun reply h => ?_
  cases reply
  case error => simp [Error.Unresolved]
  case ok fd =>
    simp only [ends_accept]
    refine (infoOrRelease_resolved fun cause => by simp [Error.Unresolved]).imp_ok fun info h _ => ?_
    simp only [ends_ite, ends_bind, ends_change, ends_lift, ends_debug, ends_throw]
    refine ⟨fun _ => ⟨fd, rfl⟩, fun _ => release_ends fun _ => ?_⟩
    simp [Error.Unresolved]

-- Each of the two ways to come to a map ends with an open handle in it.
theorem create_opened (hm : m.handle = .unset) :
    Ends create (m, h) (fun _ s => m.Opened s.1) fun e _ => ¬e.Unresolved := by
  simp only [create, ends_bind, ends_object]
  rw [hm]
  simp only [ends_bind, ends_lift, ends_change]
  refine countCpus_resolved.imp_ok fun cpus h _ => ?_
  cases hp : m.pinPath
  case none =>
    refine createNew_opened.imp_ok ?_
    rintro _ s ⟨fd, hs⟩
    exact ⟨fd, cpus, by simp [hs, hp]⟩
  case some path =>
    simp only [ends_bind, ends_lift, ends_get, ends_ite]
    refine ⟨fun _ => ?_, fun _ => ?_⟩
    case refine_1 =>
      refine openPinned_opened.imp_ok ?_
      rintro _ s ⟨fd, hs⟩
      exact ⟨fd, cpus, by simp [hs, hp]⟩
    case refine_2 =>
      refine createNew_opened.imp_ok ?_
      rintro _ ⟨m', h⟩ ⟨fd, hs⟩
      cases hs
      simp only [pin, ends_bind, ends_object, ends_liftExcept, liveFd, ends_lift]
      refine ends_perform_of_forall fun reply h => ?_
      cases reply
      case error => simp [Error.Unresolved]
      case ok => exact ⟨fd, cpus, by simp [hp]⟩

end Map

end EbpfManager
