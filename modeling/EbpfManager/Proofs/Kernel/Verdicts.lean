import EbpfManager.Proofs.Kernel.Pins
import EbpfManager.Proofs.Kernel.Programs

namespace EbpfManager.Machine

variable {m m' m'' : Machine} {code : Bytes} {slots : List Bytes} {ids : List Nat} {fds fds' : List Fd}
  {a : ProgramAttributes} {log : Option LogBuffer}

-- That the same handles are open on the same maps.
def AgreesOnMaps (m m' : Machine) : Prop :=
  ∀ fd id, m.handles.get? fd = some (.map id) ↔ m'.handles.get? fd = some (.map id)

namespace AgreesOnMaps

theorem trans (h : m.AgreesOnMaps m') (h' : m'.AgreesOnMaps m'') : m.AgreesOnMaps m'' :=
  fun fd id => (h fd id).trans (h' fd id)

theorem loadedMaps_eq (h : m.AgreesOnMaps m') (index : Nat) :
    m.loadedMaps index slots ids = m'.loadedMaps index slots ids := by
  induction slots generalizing index ids
  case nil => rfl
  case cons slot slots ih =>
    simp only [loadedMaps, ih]
    split
    case h_1 => rfl
    case h_2 i _ =>
      split
      case isFalse => rfl
      case isTrue =>
        -- A handle that is open on something else is as good as none.
        by_cases hm : ∃ id, m.handles.get? i.immediate = some (.map id)
        case pos =>
          obtain ⟨id, hm⟩ := hm
          rw [hm, (h ..).mp hm]
        case neg =>
          split
          case h_1 id he => exact absurd ⟨id, he⟩ hm
          case h_2 =>
            split
            case h_1 id he => exact absurd ⟨id, (h ..).mpr he⟩ hm
            case h_2       => rfl

theorem verify_eq (h : m.AgreesOnMaps m') : m.verify code = m'.verify code := by
  simp only [verify, h.loadedMaps_eq]

end AgreesOnMaps

-- The error for code that is refused, and what the log says about it.
def verdict (m : Machine) (code : Bytes) : Except (Errno × String) (List Nat) :=
  if code = [] ∨ code.length % Instruction.size ≠ 0 then .error (Errno.invalid, "")
  else (m.verify code).mapError (Errno.accessDenied, ·)

theorem AgreesOnMaps.verdict_eq (h : m.AgreesOnMaps m') : m.verdict code = m'.verdict code := by
  simp only [verdict, h.verify_eq]

theorem logged_empty (log : Option LogBuffer) : logged "" log = log := by
  cases log
  case none => rfl
  case some => simp [logged, LogBuffer.write, Text.encode]

theorem programLoad_of_error {number : Errno} {message : String} (h : m.verdict a.code = .error (number, message)) :
    m.programLoad a log = ((fails number, logged message log), m) := by
  simp only [verdict] at h
  split at h
  case isTrue hc =>
    cases h
    rw [programLoad, if_pos hc, logged_empty]
  case isFalse hc =>
    cases hv : m.verify a.code
    case ok => simp [hv, Except.mapError] at h
    case error message' =>
      simp only [hv, Except.mapError, Except.error.injEq, Prod.mk.injEq] at h
      obtain ⟨rfl, rfl⟩ := h
      simp only [programLoad, if_neg hc, hv]

-- A new program, and a handle that is open on it.
def withProgram (m : Machine) (program : ProgramInfo) : Machine :=
  ((m.addProgram program).openHandle (.program (m.lastId + 1))).2

theorem programLoad_of_ok (log : Option LogBuffer) (h : m.verdict a.code = .ok ids) :
    ∃ program, m.programLoad a log = ((.ok m.nextFd, log), m.withProgram program) := by
  simp only [verdict] at h
  split at h
  case isTrue  => cases h
  case isFalse hc =>
    rw [mapError_eq_ok] at h
    simp only [programLoad, if_neg hc, h]
    exact ⟨_, rfl⟩

theorem number_of_verdict {number : Errno} {message : String} (h : m.verdict code = .error (number, message)) :
    number = Errno.accessDenied ∨ number = Errno.invalid := by
  simp only [verdict] at h
  split at h
  case isTrue => exact .inr (congrArg Prod.fst (Except.error.inj h)).symm
  case isFalse =>
    cases hv : m.verify code
    case ok      => simp [hv, Except.mapError] at h
    case error _ =>
      rw [hv] at h
      exact .inl (congrArg Prod.fst (Except.error.inj h)).symm

-- `m'` is `m` with new programs, one behind each of the handles.
structure Adds (m m' : Machine) (fds : List Fd) : Prop where
  maps                 : m'.maps = m.maps
  pins                 : m'.pins = m.pins
  files                : m'.files = m.files
  program {id program} : m.programs.get? id = some program → m'.programs.get? id = some program
  handle {fd object}   : m.handles.get? fd = some object → m'.handles.get? fd = some object
  only {fd object}     : m'.handles.get? fd = some object → m.handles.get? fd = some object ∨ fd ∈ fds
  opens {fd}           : fd ∈ fds → m.handles.get? fd = none ∧ ∃ id, m'.handles.get? fd = some (.program id) ∧
                           m.programs.get? id = none ∧ m'.Has (.program id)
  apart                : fds.Pairwise (m'.handles.get? · ≠ m'.handles.get? ·)

namespace Adds

theorem refl (m : Machine) : m.Adds m [] where
  maps    := rfl
  pins    := rfl
  files   := rfl
  program := id
  handle  := id
  only    := .inl
  opens h := by cases h
  apart   := .nil

theorem trans (a : m.Adds m' fds) (a' : m'.Adds m'' fds') : m.Adds m'' (fds ++ fds') where
  maps := a'.maps.trans a.maps
  pins := a'.pins.trans a.pins
  files := a'.files.trans a.files
  program h := a'.program (a.program h)
  handle h := a'.handle (a.handle h)
  only h := by
    cases a'.only h
    case inl h => exact (a.only h).imp_right (List.mem_append_left _)
    case inr h => exact .inr (List.mem_append_right _ h)
  opens {fd} h := by
    cases List.mem_append.mp h
    case inl h =>
      obtain ⟨hn, id, ho, hp, program, hs⟩ := a.opens h
      exact ⟨hn, id, a'.handle ho, hp, program, a'.program hs⟩
    case inr h =>
      obtain ⟨hn, id, ho, hp, hs⟩ := a'.opens h
      refine ⟨?_, id, ho, ?_, hs⟩
      case refine_1 =>
        by_contra hm
        obtain ⟨object, hm⟩ := Option.ne_none_iff_exists'.mp hm
        cases hn.symm.trans (a.handle hm)
      case refine_2 =>
        by_contra hm
        obtain ⟨program, hm⟩ := Option.ne_none_iff_exists'.mp hm
        cases hp.symm.trans (a.program hm)
  apart := by
    refine List.pairwise_append.mpr ⟨?_, a'.apart, ?_⟩
    case refine_1 =>
      refine a.apart.imp_of_mem fun {fd fd'} hm hm' hne => ?_
      obtain ⟨_, id, ho, _⟩ := a.opens hm
      obtain ⟨_, id', ho', _⟩ := a.opens hm'
      rwa [a'.handle ho, a'.handle ho', ← ho, ← ho']
    case refine_2 =>
      -- The program behind a handle of the first list was there when the second one began.
      intro fd hm fd' hm' he
      obtain ⟨_, id, ho, _, program, hs⟩ := a.opens hm
      obtain ⟨_, id', ho', hn, _⟩ := a'.opens hm'
      cases (a'.handle ho).symm.trans (he.trans ho')
      cases hn.symm.trans hs

theorem agreesOnMaps (a : m.Adds m' fds) : m.AgreesOnMaps m' := by
  refine fun fd id => ⟨a.handle, fun h => ?_⟩
  cases a.only h
  case inl h => exact h
  case inr hm =>
    obtain ⟨_, id', ho, _⟩ := a.opens hm
    cases h.symm.trans ho

end Adds

namespace Consistent

variable (c : m.Consistent) (program : ProgramInfo)

include c

theorem withProgram : (m.withProgram program).Consistent := by
  have hs : (m.addProgram program).Has (.program (m.lastId + 1)) :=
    ⟨program, by simp [Machine.addProgram, Table.get?_insert]⟩
  exact ((c.addProgram program).consistent.openHandle _ hs).consistent

theorem adds : m.Adds (m.withProgram program) [m.nextFd] where
  maps    := rfl
  pins    := rfl
  files   := rfl
  program := (c.addProgram program).keeps.program
  handle h := by
    rw [Machine.withProgram, Machine.openHandle, Table.get?_insert]
    exact (if_neg (c.below h).ne').trans h
  only {fd object} h := by
    rw [Machine.withProgram, Machine.openHandle, Table.get?_insert] at h
    split at h
    case isTrue he => exact .inr (List.mem_singleton.mpr he.symm)
    case isFalse   => exact .inl h
  opens h := by
    cases List.mem_singleton.mp h
    refine ⟨c.fresh, m.lastId + 1, openHandle_get?, ?_, program, ?_⟩
    case refine_1 =>
      by_contra hn
      obtain ⟨_, hs⟩ := Option.ne_none_iff_exists'.mp hn
      exact absurd (c.programNumber hs) (Nat.not_succ_le_self _)
    case refine_2 => simp [Machine.withProgram, Machine.openHandle, Machine.addProgram, Table.get?_insert]
  apart := List.pairwise_singleton ..

end Consistent

end EbpfManager.Machine
