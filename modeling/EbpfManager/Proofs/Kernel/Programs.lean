import EbpfManager.Proofs.Handles.Requests

namespace EbpfManager

-- The handle in an instruction that loads a map.
def Instruction.mapHandle? (i : Instruction) : Option Fd :=
  if i.code = loadImmediate64 ∧ i.source = mapHandleMark then some i.immediate else none

namespace Machine

variable {m m' : Machine} {fd : Fd} {code : Bytes} {ids refs : List Nat} {slots : List Bytes}

-- The handles in the loads among instructions.
def loadedHandles (slots : List Bytes) : List Fd :=
  slots.filterMap fun slot => (Instruction.ofBytes? slot).bind Instruction.mapHandle?

-- The maps that the loads in code refer to, in their order.
def Refers (m : Machine) (code : Bytes) (ids : List Nat) : Prop :=
  List.Forall₂ (fun fd id => m.handles.get? fd = some (.map id))
    (loadedHandles (Bytes.chunks Instruction.size code)) ids

-- A map is taken down if it has not been met before.
theorem loadedMaps_eq_ok {index : Nat} (h : m.loadedMaps index slots refs.eraseDups = .ok ids) :
    ∃ refs', List.Forall₂ (fun fd id => m.handles.get? fd = some (.map id)) (loadedHandles slots) refs' ∧
      ids = (refs ++ refs').eraseDups := by
  induction slots generalizing index refs
  case nil =>
    cases h
    exact ⟨[], .nil, by simp⟩
  case cons slot slots ih =>
    unfold loadedMaps at h
    simp only [loadedHandles, List.filterMap_cons]
    cases hi : Instruction.ofBytes? slot <;> simp only [hi] at h
    case none => exact ih h
    case some i =>
      split at h
      case isFalse hn =>
        simp only [Option.bind_some, Instruction.mapHandle?, if_neg hn]
        exact ih h
      case isTrue hl =>
        simp only [Option.bind_some, Instruction.mapHandle?, if_pos hl]
        split at h
        case h_2 => cases h
        case h_1 id ho =>
          rw [← eraseDups_concat] at h
          obtain ⟨refs', hf, he⟩ := ih h
          exact ⟨id :: refs', .cons ho hf, by rw [he, List.append_assoc, List.singleton_append]⟩

theorem verify_eq_ok (h : m.verify code = .ok ids) : ∃ refs, m.Refers code refs ∧ ids = refs.eraseDups := by
  simp only [verify] at h
  split at h
  case isTrue => cases h
  case isFalse =>
    split at h <;> cases h
    case h_1 hl => exact loadedMaps_eq_ok (show m.loadedMaps _ _ (List.eraseDups []) = _ from hl)

theorem refers_of_programLoad {a : ProgramAttributes} {log log' : Option LogBuffer}
    (h : m.programLoad a log = ((.ok fd, log'), m')) : ∃ number program refs,
      m'.handles.get? fd = some (.program number) ∧ m'.programs.get? number = some program ∧
      m.Refers a.code refs ∧ program.mapIds = refs.eraseDups := by
  obtain ⟨program, hv, ho⟩ := programLoad_eq_ok h
  obtain ⟨refs, hr, he⟩ := verify_eq_ok hv
  cases ho
  exact ⟨m.lastId + 1, program, refs, by simp [Table.get?_insert], by simp [addProgram, Table.get?_insert], hr, he⟩

-- The handle that is returned is open on the program that is new.
theorem program_of_programLoad {a : ProgramAttributes} {log : Option LogBuffer} {number : Nat}
    (hn : m.programs.get? number = none) (hp : (m.programLoad a log).2.programs.get? number ≠ none) :
    ∃ fd log' m', m.programLoad a log = ((.ok fd, log'), m') ∧ m'.handles.get? fd = some (.program number) := by
  rcases h : m.programLoad a log with ⟨⟨reply, log'⟩, m'⟩
  rw [h] at hp
  cases reply
  case error => exact absurd (programLoad_eq_error h ▸ hn) hp
  case ok fd =>
    refine ⟨fd, log', m', rfl, ?_⟩
    obtain ⟨program', _, ho⟩ := programLoad_eq_ok h
    cases ho
    simp only [addProgram, Table.get?_insert] at hp ⊢
    split at hp
    case isTrue he => simp [he]
    case isFalse   => exact absurd hn hp

end Machine

end EbpfManager
