import EbpfManager.Map.Creation
import EbpfManager.Map.Iteration
import EbpfManager.Proofs.Handles.Host

namespace EbpfManager

def Handle.held (kind : HandleKind) : Handle → Multiset Holding
  | .live fd         => {(fd, kind)}
  | .unset | .closed => 0

@[simp] theorem Handle.held_unset (kind : HandleKind) : Handle.unset.held kind = 0 := rfl

@[simp] theorem Handle.held_closed (kind : HandleKind) : Handle.closed.held kind = 0 := rfl

@[simp] theorem Handle.held_live (kind : HandleKind) (fd : Fd) :
    (Handle.live fd).held kind = {(fd, kind)} := rfl

-- An object and its host: the host holds what the object has, and the rest.
def Host.Owns {ο : Type} (h₀ : Host) (held : ο → Multiset Holding) (rest : Multiset Holding)
    (s : ο × Host) : Prop :=
  h₀.Holds s.2 (held s.1 + rest)

namespace Map

open Attempt

def held (m : Map) : Multiset Holding :=
  m.handle.held .map

variable {h₀ h : Host} {rest : Multiset Holding} {m : Map} {fd : Fd}

theorem ends_liveFd {ok : Fd → Host → Prop} {fail : Error → Host → Prop}
    (ho : ∀ fd, m.handle = .live fd → ok fd h) (hf : ∀ e, fail e h) :
    Ends (liftM m.liveFd : Attempt Fd) h ok fail := by
  cases hm : m.handle <;> simp [liveFd, hm, ho, hf]

theorem mem_held (hm : m.handle = .live fd) : (fd, HandleKind.map) ∈ m.held + rest := by
  simp [held, hm]

theorem drop_holds (hh : h₀.Holds h (m.held + rest)) : h₀.Holds (m.drop h) rest := by
  cases hm : m.handle <;> simp only [held, hm, Handle.held_unset, Handle.held_closed,
    Handle.held_live, zero_add, Multiset.singleton_add] at hh
  case unset | closed => simpa [drop, hm, Handle.fd?] using hh
  case live fd =>
    obtain ⟨hr, hc⟩ := hh.close
    simp only [drop, hm, Handle.fd?]
    split <;> simp_all

theorem release_holds {kind : HandleKind} {fail : Error → Host → Prop}
    (hh : h₀.Holds h ((fd, kind) ::ₘ rest)) :
    Ends (release fd) h (fun _ h => h₀.Holds h rest) fail := by
  simp only [release, ends_bind, ends_pure]
  exact hh.ends_close.imp_ok (fun _ _ hh => hh.right)

theorem countCpus_holds : Maintains (h₀.Holds · rest) m.countCpus := by
  intro h hh
  simp only [countCpus, ends_ite, ends_bind, ends_pure, hh, implies_true, and_true]
  intro _
  refine (hh.ends_ask (r := .possibleCpus) (fun _ h => by cases h) (fun _ h => by cases h) rfl).imp_ok ?_
  intro reply h hh
  cases reply <;> simpa using hh

-- A handle that the kernel describes as a map is open on a map.
theorem infoOrRelease_holds {kind : HandleKind} {wrap : CallError → Error}
    (hh : h₀.Holds h ((fd, kind) ::ₘ rest)) :
    Ends (infoOrRelease wrap fd) h (fun _ h => h₀.Holds h ((fd, .map) ::ₘ rest))
      fun _ h => h₀.Holds h rest := by
  simp only [infoOrRelease, ends_bind]
  refine (hh.ends_mapInfo (Multiset.mem_cons_self ..)).imp_ok ?_
  rintro reply h ⟨hh, hk⟩
  cases reply
  case ok info => simpa [hk info rfl] using hh
  case error cause =>
    simp only [ends_bind, ends_throw]
    exact release_holds hh

theorem ofInfo_holds {info : MapInfo} (hh : h₀.Holds h ((fd, .map) ::ₘ rest)) :
    Ends (ofInfo fd info) h (fun m h => h₀.Holds h (m.held + rest)) fun _ h => h₀.Holds h rest := by
  simp only [ofInfo]
  split
  case h_1 =>
    simp only [ends_bind, ends_throw]
    exact release_holds hh
  case h_2 kind _ =>
    simp only [ends_bind, ends_pure, ends_orElseClean]
    have hh : h₀.Holds h ({(fd, HandleKind.map)} + rest) := by simpa using hh
    exact (countCpus_holds h hh).imp (fun _ _ => id) fun _ _ hh => drop_holds hh

theorem ofPath_holds {path : Path} (hh : h₀.Holds h rest) :
    Ends (ofPath path) h (fun m h => h₀.Holds h (m.held + rest)) fun _ h => h₀.Holds h rest := by
  simp only [ofPath, ends_bind, ends_pure]
  refine hh.ends_objectGet.imp_ok ?_
  rintro reply h ⟨kind, hh⟩
  cases reply
  case error => simpa using hh
  case ok fd =>
    simp only [ends_accept]
    refine (infoOrRelease_holds hh).imp_ok ?_
    intro info h hh
    exact ofInfo_holds hh

theorem kernelInfo_holds : Maintains (h₀.Holds · (m.held + rest)) m.kernelInfo := by
  intro h hh
  refine ends_bind.mpr <| ends_liveFd (fun fd hm => ?_) fun _ => hh
  simp only [ends_bind]
  refine (hh.ends_mapInfo (mem_held hm)).imp_ok ?_
  rintro reply h ⟨hh, _⟩
  cases reply <;> simpa using hh

-- The template of a map of maps while it is needed.
def templateHeld : Option Fd → Multiset Holding
  | none    => 0
  | some fd => {(fd, .map)}

theorem createTemplate_holds (hh : h₀.Holds h rest) :
    Ends m.createTemplate h (fun template h => h₀.Holds h (templateHeld template + rest))
      fun _ h => h₀.Holds h rest := by
  simp only [createTemplate, ends_ite, ends_pure, templateHeld, zero_add, hh, implies_true, and_true]
  intro _
  split
  case h_1 => simpa using hh
  case h_2 shape _ =>
    simp only [ends_bind]
    refine (hh.ends_mapCreate (a := ⟨_, shape, none⟩) fun _ h => by cases h).imp_ok ?_
    intro reply h hh
    cases reply <;> simpa using hh

theorem releaseTemplate_holds {template : Option Fd} {fail : Error → Host → Prop}
    (hh : h₀.Holds h (templateHeld template + rest)) :
    Ends (m.releaseTemplate template) h (fun _ h => h₀.Holds h rest) fail := by
  cases template
  case none => simpa [releaseTemplate, templateHeld] using hh
  case some fd =>
    simp only [templateHeld, Multiset.singleton_add] at hh
    simp only [releaseTemplate, ends_bind]
    refine hh.ends_close.imp_ok ?_
    rintro reply h ⟨hr, hh⟩
    simpa [hr] using hh

-- The template is released whether a map could be created or not.
theorem createNew_owns (hu : m.handle = .unset) (hh : h₀.Holds h rest) :
    Ends createNew (m, h) (fun _ => h₀.Owns held rest) fun _ => h₀.Owns held rest := by
  have unchanged {h} (hh : h₀.Holds h rest) : h₀.Owns held rest (m, h) := by
    simpa [Host.Owns, held, hu] using hh
  simp only [createNew, ends_bind, ends_object, ends_lift]
  refine (createTemplate_holds hh).imp ?_ fun _ _ => unchanged
  intro template h hh
  refine (hh.ends_mapCreate ?_).imp_ok ?_
  case refine_1 =>
    rintro fd (ht : template = some fd)
    exact ⟨.map, by simp [ht, templateHeld]⟩
  case refine_2 =>
    intro reply h hh
    cases reply
    case error cause =>
      exact (releaseTemplate_holds hh).imp (fun _ _ hh => by simpa using unchanged hh) fun _ _ => unchanged
    case ok fd =>
      have hh : h₀.Holds h (templateHeld template + ((fd, HandleKind.map) ::ₘ rest)) := by
        simpa using hh
      refine (releaseTemplate_holds hh).imp_ok ?_
      intro _ h hh
      simpa [Host.Owns, held] using hh

-- The handle on the pinned map is taken over, or released if the map does not fit.
theorem openPinned_owns {path : Path} (hu : m.handle = .unset) (hh : h₀.Holds h rest) :
    Ends (openPinned path) (m, h) (fun _ => h₀.Owns held rest) fun _ => h₀.Owns held rest := by
  have unchanged {h} (hh : h₀.Holds h rest) : h₀.Owns held rest (m, h) := by
    simpa [Host.Owns, held, hu] using hh
  simp only [openPinned, ends_bind, ends_object, ends_lift]
  refine hh.ends_objectGet.imp_ok ?_
  rintro reply h ⟨kind, hh⟩
  cases reply
  case error => simpa using unchanged hh
  case ok fd =>
    simp only [ends_accept]
    refine (infoOrRelease_holds hh).imp ?_ fun _ _ => unchanged
    intro info h hh
    simp only [ends_ite, ends_bind, ends_change, ends_lift, ends_debug, ends_throw]
    refine ⟨fun _ => ?_, fun _ => ?_⟩
    case refine_1 => simpa [Host.Owns, held] using hh
    case refine_2 => exact (release_holds hh).imp_ok (fun _ _ => unchanged)

theorem pin_owns {path : Path} : Maintains (h₀.Owns held rest) (pin path) := by
  rintro ⟨m, h⟩ hh
  simp only [pin, ends_bind, ends_object, ends_liftExcept, liveFd]
  cases hm : m.handle
  case unset | closed => exact hh
  case live fd =>
    simp only [ends_lift]
    refine (hh.ends_objectPin (mem_held hm)).imp_ok ?_
    intro reply h hh
    cases reply <;> simpa [Host.Owns, held] using hh

theorem create_owns : Maintains (h₀.Owns held rest) create := by
  rintro ⟨m, h⟩ hh
  simp only [create, ends_bind, ends_object]
  cases hm : m.handle
  case live | closed => simpa using hh
  case unset =>
    simp only [ends_bind, ends_lift, ends_change]
    -- The map has no handle yet: all handles are the rest.
    have hh : h₀.Holds h rest := by simpa [Host.Owns, held, hm] using hh
    refine (countCpus_holds h hh).imp ?_ ?_
    case refine_1 =>
      intro cpus h hh
      have hu : { m with cpus }.handle = .unset := hm
      split
      case h_1 => exact createNew_owns hu hh
      case h_2 path _ =>
        simp only [ends_bind, ends_lift, ends_get, ends_ite]
        refine ⟨fun _ => openPinned_owns hu hh, fun _ => ?_⟩
        exact (createNew_owns hu hh).imp_ok (fun _ => pin_owns)
    case refine_2 =>
      intro _ h hh
      simpa [Host.Owns, held, hm] using hh

theorem unpin_owns : Maintains (h₀.Owns held rest) unpin := by
  rintro ⟨m, h⟩ hh
  simp only [unpin, ends_bind, ends_object]
  split
  case h_1 => exact hh
  case h_2 path _ =>
    simp only [ends_bind, ends_lift, ends_files, ends_change, ends_debug]
    split
    case h_1 files _ => exact Host.holds_note.mpr <| hh.setFiles files
    case h_2 => exact hh

theorem close_owns : Maintains (h₀.Owns held rest) close := by
  rintro ⟨m, h⟩ hh
  simp only [close, ends_bind, ends_object]
  cases hm : m.handle
  case closed => exact hh
  case unset => simpa [Host.Owns, held, hm] using hh
  case live fd =>
    simp only [Host.Owns, held, hm, Handle.held_live, Multiset.singleton_add] at hh
    simp only [ends_bind, ends_change, ends_lift]
    refine hh.ends_close.imp_ok ?_
    rintro reply h ⟨hr, hh⟩
    simpa [hr, Host.Owns, held] using hh

end Map

end EbpfManager
