import EbpfManager.Proofs.Files.Requests
import EbpfManager.Proofs.Loading.Creation

namespace EbpfManager

open Attempt
open Files (Tree Place)

variable {h : Host} {t t' : Tree} {place : Place}

@[simp] theorem Host.machine_note {level : LogLevel} {text : String} :
    (h.note level text).machine = h.machine :=
  rfl

def Host.FilesAre (t : Tree) (h : Host) : Prop :=
  h.machine.files = t

theorem maintains_perform {r : Request} (hr : ¬r.Pins) : Maintains (Host.FilesAre t) (perform r) :=
  fun _ hf => (ends_perform_files hr).imp_ok fun _ _ he => he.trans hf

namespace Map

variable {m : Map} {fd : Fd}

theorem release_filesAre : Maintains (Host.FilesAre t) (release fd) := by
  intro h hf
  simp only [release, ends_bind, ends_pure]
  exact maintains_perform (by simp [Request.Pins]) h hf

theorem drop_files : (m.drop h).machine.files = h.machine.files := by
  unfold drop
  split
  case h_1 => rfl
  case h_2 fd _ =>
    have hp : (h.perform (.close fd)).2.machine.files = h.machine.files :=
      Host.perform_files (by simp [Request.Pins])
    split
    case h_1 he => simpa [he] using hp
    case h_2 he => simpa [he] using hp

theorem countCpus_filesAre : Maintains (Host.FilesAre t) m.countCpus := by
  intro h hf
  simp only [countCpus, ends_ite, ends_bind, ends_pure, hf, implies_true, and_true]
  intro _
  refine (maintains_perform (by simp [Request.Pins]) h hf).imp_ok fun reply h hf => ?_
  cases reply <;> simpa using hf

theorem infoOrRelease_filesAre {wrap : CallError → Error} :
    Maintains (Host.FilesAre t) (infoOrRelease wrap fd) := by
  intro h hf
  simp only [infoOrRelease, ends_bind]
  refine (maintains_perform (by simp [Request.Pins]) h hf).imp_ok fun reply h hf => ?_
  cases reply
  case ok => exact hf
  case error =>
    simp only [ends_bind, ends_throw]
    exact release_filesAre h hf

theorem createTemplate_filesAre : Maintains (Host.FilesAre t) m.createTemplate := by
  intro h hf
  simp only [createTemplate, ends_ite, ends_pure, hf, implies_true, and_true]
  intro _
  split
  case h_1 => exact hf
  case h_2 =>
    simp only [ends_bind]
    refine (maintains_perform (by simp [Request.Pins]) h hf).imp_ok fun reply h hf => ?_
    cases reply <;> simpa using hf

theorem releaseTemplate_filesAre {template : Option Fd} :
    Maintains (Host.FilesAre t) (m.releaseTemplate template) := by
  intro h hf
  cases template
  case none => exact hf
  case some fd =>
    simp only [releaseTemplate, ends_bind]
    refine (maintains_perform (by simp [Request.Pins]) h hf).imp_ok fun reply h hf => ?_
    cases reply <;> exact hf

theorem createNew_filesAre : Maintains (fun s => Host.FilesAre t s.2) createNew := by
  rintro ⟨m, h⟩ hf
  simp only [createNew, ends_bind, ends_object, ends_lift]
  refine (createTemplate_filesAre h hf).imp_ok fun template h hf => ?_
  refine (maintains_perform (by simp [Request.Pins]) h hf).imp_ok fun reply h hf => ?_
  refine (releaseTemplate_filesAre h hf).imp_ok fun _ h hf => ?_
  cases reply <;> simpa [Host.FilesAre] using hf

theorem openPinned_filesAre {path : Path} :
    Maintains (fun s => Host.FilesAre t s.2) (openPinned path) := by
  rintro ⟨m, h⟩ hf
  simp only [openPinned, ends_bind, ends_object, ends_lift]
  refine (maintains_perform (by simp [Request.Pins]) h hf).imp_ok fun reply h hf => ?_
  cases reply
  case error => exact hf
  case ok fd =>
    simp only [ends_accept]
    refine (infoOrRelease_filesAre h hf).imp_ok fun info h hf => ?_
    simp only [ends_ite, ends_bind, ends_change, ends_lift, ends_debug, ends_throw]
    exact ⟨fun _ => hf, fun _ => release_filesAre h hf⟩

end Map

-- The files after the map of a definition was made.
def Files.Tree.WithPin (t : Tree) (pinPath : Option Path) (t' : Tree) : Prop :=
  match pinPath with
  | none      => t' = t
  | some path => if t.exists? path then t' = t else t.create path = .ok t'

theorem Map.create_files {m : Map} (hm : m.handle = .unset) :
    Ends create (m, h) (fun _ s => h.machine.files.WithPin m.pinPath s.2.machine.files)
      fun _ s => s.2.machine.files = h.machine.files := by
  simp only [create, ends_bind, ends_object]
  rw [hm]
  simp only [ends_bind, ends_lift, ends_change]
  refine (countCpus_filesAre h rfl).imp_ok fun cpus h' hf => ?_
  cases hp : m.pinPath
  case none => exact createNew_filesAre (_, h') hf
  case some path =>
    simp only [ends_bind, ends_lift, ends_get, ends_ite]
    refine ⟨fun he => ?_, fun he => ?_⟩
    -- The map is opened where it is pinned: no file is created.
    case refine_1 =>
      rw [hf] at he
      refine (openPinned_filesAre (_, h') hf).imp_ok fun _ s hf => ?_
      have hf : s.2.machine.files = h.machine.files := hf
      simpa [Tree.WithPin, he] using hf
    -- The map is new and pinned at the end, if the kernel still has it open then.
    case refine_2 =>
      rw [hf] at he
      refine (createNew_filesAre (_, h') hf).imp_ok ?_
      rintro _ ⟨m', h'⟩ hf
      simp only [pin, ends_bind, ends_object, ends_liftExcept, liveFd]
      cases m'.handle
      case unset | closed => exact hf
      case live fd =>
        simp only [ends_lift]
        refine ends_objectPin_files.imp_ok fun reply h'' hp => ?_
        rw [hf] at hp
        cases reply
        case error => exact hp
        case ok =>
          have hp : h.machine.files.create path = .ok h''.machine.files := hp
          simpa [Tree.WithPin, he] using hp

theorem Map.unpin_files {m : Map} :
    Ends unpin (m, h)
      (fun _ s => ∃ path, m.pinPath = some path ∧ s.1 = { m with pinPath := none } ∧
        h.machine.files.remove path = .ok s.2.machine.files)
      fun _ s => s = (m, h) ∧
        ∀ path t, m.pinPath = some path → h.machine.files.remove path ≠ .ok t := by
  simp only [unpin, ends_bind, ends_object]
  split
  case h_1 hp => simp [hp]
  case h_2 path hp =>
    simp only [ends_bind, ends_lift, ends_files, ends_change, ends_debug]
    split
    case h_1 hr => exact ⟨path, hp, trivial, hr⟩
    case h_2 hr =>
      refine ⟨trivial, fun path' t hp' => ?_⟩
      cases hp.symm.trans hp'
      simp [hr]

end EbpfManager
