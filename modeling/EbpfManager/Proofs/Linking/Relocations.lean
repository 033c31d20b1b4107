import EbpfManager.Proofs.Linking.Instructions

namespace EbpfManager

namespace Linking

variable {program : String} {maps : Table String Map} {code : Bytes} {l : MapLoad} {e : Error}

-- The map that the load names is open, and it is a load of the code.
def Linkable (maps : Table String Map) (code : Bytes) (l : MapLoad) : Prop :=
  handle? maps l ≠ none ∧ IsLoad code l.index

instance : Decidable (Linkable maps code l) := inferInstanceAs (Decidable (_ ∧ _))

-- How linking ends at a load that cannot be linked. The map comes before the place in the code.
inductive Refused (program : String) (maps : Table String Map) (code : Bytes) (l : MapLoad) : Error → Prop
  | unresolved (closed : handle? maps l = none) : Refused program maps code l (.unresolvedReference program l.map)
  | notALoad (opened : handle? maps l ≠ none) (load : ¬IsLoad code l.index)
      (near : Instruction.size * l.index + 2 * Instruction.size < positionLimit) :
      Refused program maps code l (.format (.notALoad program l.index))
  | tooFar (opened : handle? maps l ≠ none)
      (far : positionLimit ≤ Instruction.size * l.index + 2 * Instruction.size) :
      Refused program maps code l .sizeOverflow

theorem fault?_eq_some : fault? program maps code l = some e ↔ Refused program maps code l e := by
  constructor
  case mp =>
    intro h
    unfold fault? at h
    split at h
    case h_1 hn =>
      cases h
      exact .unresolved hn
    case h_2 hfd =>
      have hopen : handle? maps l ≠ none := by simp [hfd]
      split at h
      case isTrue hfar =>
        cases h
        exact .tooFar hopen hfar
      case isFalse hnear =>
        split at h <;> cases h
        case isFalse hl => exact .notALoad hopen hl (by omega)
  case mpr =>
    intro h
    unfold fault?
    cases h
    case unresolved hn => rw [hn]
    case notALoad hopen hl hnear =>
      obtain ⟨fd, hfd⟩ := Option.ne_none_iff_exists'.mp hopen
      rw [hfd]
      simp only [if_neg hl, if_neg (Nat.not_le_of_lt hnear)]
    case tooFar hopen hfar =>
      obtain ⟨fd, hfd⟩ := Option.ne_none_iff_exists'.mp hopen
      rw [hfd]
      simp only [if_pos hfar]

-- In code of a length that has a position, a load is never too far to be linked.
theorem fault?_eq_none_iff_linkable (h : code.length < positionLimit) :
    fault? program maps code l = none ↔ Linkable maps code l := by
  rw [fault?_eq_none, Linkable, Option.ne_none_iff_exists']
  constructor
  case mp  => exact fun ⟨hfd, _, hl⟩ => ⟨hfd, hl⟩
  case mpr => exact fun ⟨hfd, hl⟩ => ⟨hfd, Nat.lt_of_le_of_lt hl.left h, hl⟩

theorem handleAt?_perm {loads loads' : List MapLoad} (hd : loads.Pairwise (·.index ≠ ·.index))
    (hp : loads'.Perm loads) : handleAt? maps loads' = handleAt? maps loads := by
  have hd' : loads'.Pairwise (·.index ≠ ·.index) := hp.symm.pairwise hd fun h => h.symm
  funext i
  by_cases h : ∃ l ∈ loads, l.index = i
  case pos =>
    obtain ⟨l, hl, rfl⟩ := h
    rw [handleAt?_of_mem hd hl, handleAt?_of_mem hd' (hp.mem_iff.mpr hl)]
  case neg =>
    simp only [not_exists, not_and] at h
    rw [handleAt?_of_forall_ne h, handleAt?_of_forall_ne fun l hl => h l (hp.mem_iff.mp hl)]

end Linking

namespace ProgramDefinition

open Linking

variable {d : ProgramDefinition} {maps : Table String Map} {code : Bytes} {e : Error}

theorem relocate_eq_error : d.relocate maps = .error e ↔ ∃ before l after, d.loads = before ++ l :: after ∧
    (∀ l ∈ before, fault? d.name maps d.code l = none) ∧ fault? d.name maps d.code l = some e := by
  have he : d.relocate maps = .error e ↔ d.loads.findSome? (fault? d.name maps d.code) = some e := by
    rw [relocate_eq]
    cases d.loads.findSome? (fault? d.name maps d.code) <;> simp
  rw [he, List.findSome?_eq_some_iff]
  simp only [and_comm]

-- Linking ends well with this code just if all loads can be linked and this is what all instructions are.
theorem relocate_eq_ok_iff_instruction : d.relocate maps = .ok code ↔
    (∀ l ∈ d.loads, fault? d.name maps d.code l = none) ∧
      ∀ i, code.instruction i = withHandle? (handleAt? maps d.loads i) (d.code.instruction i) := by
  constructor
  case mp  => exact fun h => ⟨(relocate_eq_ok_iff.mp h).left, (instruction_relocate h).right⟩
  case mpr =>
    intro ⟨hf, hi⟩
    have hl : ∀ l ∈ d.loads, IsLoad d.code l.index := fun l hl => (fault?_eq_none.mp (hf l hl)).right.right
    exact relocate_eq_ok_iff.mpr ⟨hf, Bytes.ext_instruction fun i => (hi i).trans ((foldl_place hl).right i).symm⟩

-- What there is to say of a definition whose code is linked with the maps of a table.
structure Relocates (d : ProgramDefinition) (maps : Table String Map) : Prop where
  succeeds : (∃ code, d.relocate maps = .ok code) ↔ ∀ l ∈ d.loads, Linkable maps d.code l
  length {code : Bytes} : d.relocate maps = .ok code → code.length = d.code.length
  -- The last load of an instruction decides which handle it has.
  loaded {code : Bytes} {before after : List MapLoad} {l : MapLoad} : d.relocate maps = .ok code →
    d.loads = before ++ l :: after → (∀ l' ∈ after, l'.index ≠ l.index) →
      ∃ m fd, maps.get? l.map = some m ∧ m.handle = .live fd ∧
        code.instruction l.index = withHandle fd (d.code.instruction l.index)
  kept {code : Bytes} {i : Nat} : d.relocate maps = .ok code → (∀ l ∈ d.loads, l.index ≠ i) →
    code.instruction i = d.code.instruction i
  reordered {code : Bytes} {loads : List MapLoad} : d.loads.Pairwise (·.index ≠ ·.index) → loads.Perm d.loads →
    ({ d with loads }.relocate maps = .ok code ↔ d.relocate maps = .ok code)
  again {code : Bytes} : d.relocate maps = .ok code → { d with code }.relocate maps = .ok code
  -- The first load that cannot be linked decides the error.
  refused {e : Error} : d.relocate maps = .error e ↔ ∃ before l after, d.loads = before ++ l :: after ∧
    (∀ l ∈ before, Linkable maps d.code l) ∧ Refused d.name maps d.code l e

-- All loads have to be loads of the code, of maps that are open. Then the code is as it was but for the handles, in
-- whatever order they were put in and however often. Otherwise the first load of which this is not so decides how
-- linking ends.
theorem relocates (h : d.code.length < positionLimit) : d.Relocates maps where
  succeeds := by
    simp only [relocate_eq_ok_iff, fault?_eq_none_iff_linkable h, exists_and_left, exists_eq, and_true]
  length hr := (instruction_relocate hr).left
  loaded hr hs hlast := by
    have hl := (relocate_eq_ok_iff.mp hr).left _ (hs ▸ List.mem_append_right _ List.mem_cons_self)
    obtain ⟨⟨fd, hfd⟩, _⟩ := fault?_eq_none.mp hl
    obtain ⟨m, hm, hlive⟩ := handle?_eq_some.mp hfd
    refine ⟨m, fd, hm, hlive, ?_⟩
    rw [(instruction_relocate hr).right, hs, handleAt?_append_cons hlast, hfd, Option.some_or, withHandle?]
  kept hr hn := by rw [(instruction_relocate hr).right, handleAt?_of_forall_ne hn, withHandle?]
  reordered hd hp := by
    simp only [relocate_eq_ok_iff_instruction, handleAt?_perm hd hp, hp.mem_iff]
  again {code} hr := by
    obtain ⟨hf, hi⟩ := relocate_eq_ok_iff_instruction.mp hr
    have hlen := (instruction_relocate hr).left
    have hsame : fault? d.name maps code = fault? d.name maps d.code :=
      fault?_congr fun i => isLoad_withHandle? hlen hi
    refine relocate_eq_ok_iff_instruction.mpr ⟨fun l hl => hsame ▸ hf l hl, fun i => ?_⟩
    rw [hi, withHandle?_withHandle?, Option.or_self]
  refused {e} := by
    simp only [relocate_eq_error, fault?_eq_some, fault?_eq_none_iff_linkable h]

-- A load that is linked twice, to two maps, and then the exit.
def loadTwice : ProgramDefinition where
  name        := "twice"
  kind        := .xdp
  sectionName := "xdp"
  license     := "GPL"
  code        := [0x18, 0x52, 1, 2, 0, 0, 0, 0, 0, 0, 0, 0, 0, 0, 0, 0, 0x95, 0, 0, 0, 0, 0, 0, 0]
  loads       := [⟨0, "first"⟩, ⟨0, "second"⟩]

def openMap (name : String) (fd : Fd) : Map where
  name       := name
  kind       := .hash
  keySize    := 4
  valueSize  := 4
  maxEntries := 8
  handle     := .live fd

def openMaps : Table String Map :=
  Table.empty.insert "first" (openMap "first" 3) |>.insert "second" (openMap "second" 260)

theorem relocates_of_loadTwice : loadTwice.code.length < positionLimit ∧
    ∃ code, loadTwice.relocate openMaps = .ok code ∧ { loadTwice with code }.relocate openMaps = .ok code ∧
      code.instruction 0 = [0x18, 0x12, 1, 2, 4, 1, 0, 0] := by
  have h : loadTwice.Relocates openMaps := relocates (by decide)
  obtain ⟨code, hr⟩ := h.succeeds.mpr (by decide)
  have hs : loadTwice.loads = [⟨0, "first"⟩] ++ ⟨0, "second"⟩ :: [] := rfl
  obtain ⟨m, fd, hm, hlive, hi⟩ := h.loaded hr hs (by simp)
  have hfd : (openMaps.get? "second").map (·.handle) = some (.live 260) := by decide
  rw [hm, Option.map_some, hlive] at hfd
  cases hfd
  exact ⟨by decide, code, hr, h.again hr, hi.trans (by decide)⟩

-- A load of an open map at an instruction whose place in octets is no number of 64 bits.
def loadTooFar : ProgramDefinition :=
  { loadTwice with loads := [⟨2 ^ 61, "first"⟩] }

theorem tooFar_overflows : ¬∀ (d : ProgramDefinition) (maps : Table String Map) (e : Error),
    d.code.length < positionLimit → d.relocate maps = .error e →
      ∃ l ∈ d.loads, e = .unresolvedReference d.name l.map ∨ e = .format (.notALoad d.name l.index) := by
  intro h
  obtain ⟨l, _, he⟩ := h loadTooFar openMaps .sizeOverflow (by decide) (by decide +kernel)
  simp at he

end ProgramDefinition

end EbpfManager
