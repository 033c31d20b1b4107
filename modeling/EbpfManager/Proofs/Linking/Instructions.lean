import EbpfManager.Linking
import EbpfManager.Proofs.Integers
import EbpfManager.Proofs.Results

namespace EbpfManager

namespace Bytes

variable {bs piece : Bytes} {start : Nat}

theorem length_patch (h : start + piece.length ≤ bs.length) :
    (bs.patch start piece).length = bs.length := by
  simp [patch]
  omega

-- The octets of instruction `i`.
def instruction (bs : Bytes) (i : Nat) : Bytes :=
  (bs.drop (Instruction.size * i)).take Instruction.size

theorem instruction_patch_self {i : Nat} (hp : piece.length = Instruction.size)
    (h : Instruction.size * i + Instruction.size ≤ bs.length) :
    (bs.patch (Instruction.size * i) piece).instruction i = piece := by
  have ht : (bs.take (Instruction.size * i)).length = Instruction.size * i := by
    rw [List.length_take]
    omega
  rw [instruction, patch, List.append_assoc, List.drop_left' ht, List.take_left' hp]

theorem instruction_patch_of_ne {i j : Nat} (hij : i ≠ j) (hp : piece.length = Instruction.size)
    (h : Instruction.size * i + Instruction.size ≤ bs.length) :
    (bs.patch (Instruction.size * i) piece).instruction j = bs.instruction j := by
  have hs : Instruction.size = 8 := rfl
  refine List.ext_getElem? fun k => ?_
  simp only [instruction, patch, List.getElem?_take, List.getElem?_drop, List.getElem?_append,
    List.length_append, List.length_take, hp]
  grind

theorem getElem?_instruction {i k : Nat} (hk : k < Instruction.size) :
    (bs.instruction i)[k]? = bs[Instruction.size * i + k]? := by
  rw [instruction, List.getElem?_take_of_lt hk, List.getElem?_drop]

-- The instructions are all that there is of the octets.
theorem ext_instruction {bs' : Bytes} (h : ∀ i, bs.instruction i = bs'.instruction i) : bs = bs' := by
  refine List.ext_getElem? fun k => ?_
  have hk : k % Instruction.size < Instruction.size := Nat.mod_lt _ (by decide)
  rw [← Nat.div_add_mod k Instruction.size, ← getElem?_instruction hk, h, getElem?_instruction hk]

end Bytes

namespace Linking

-- The octets of an instruction with a map's handle in it: the code, the destination and the offset
-- stay.
def withHandle (fd : Fd) : Bytes → Bytes
  | code :: registers :: o₀ :: o₁ :: _ =>
    code :: (registers % 16 + 16 * Instruction.mapHandleMark) :: o₀ :: o₁ :: Bytes.ofInt 4 fd
  | bs => bs

theorem toBytes_resolve {bs : Bytes} {i : Instruction} (fd : Fd)
    (h : Instruction.ofBytes? bs = some i) :
    (resolve i fd).toBytes = withHandle fd (bs.take Instruction.size) := by
  unfold Instruction.ofBytes? at h
  split at h
  case h_2 => cases h
  case h_1 o₀ o₁ _ _ _ _ _ =>
    cases h
    have ho : Bytes.ofInt 2 (Bytes.toInt [o₀, o₁]) = [o₀, o₁] := Bytes.ofInt_toInt [o₀, o₁]
    simp [resolve, Instruction.setSource, Instruction.toBytes, ho, withHandle, Instruction.size]

theorem withHandle_withHandle (fd fd' : Fd) (bs : Bytes) : withHandle fd (withHandle fd' bs) = withHandle fd bs := by
  match bs with
  | [] | [_] | [_, _] | [_, _, _] => rfl
  | code :: registers :: o₀ :: o₁ :: _ =>
    have h : (registers % 16 + 16 * Instruction.mapHandleMark) % 16 = registers % 16 := by
      apply UInt8.toNat_inj.mp
      simp [Instruction.mapHandleMark]
    simp only [withHandle, h]

-- The octets of an instruction after linking: they are as they were where no handle is put.
def withHandle? : Option Fd → Bytes → Bytes
  | none,    bs => bs
  | some fd, bs => withHandle fd bs

theorem withHandle?_withHandle? (fd fd' : Option Fd) (bs : Bytes) :
    withHandle? fd (withHandle? fd' bs) = withHandle? (fd.or fd') bs := by
  cases fd <;> cases fd'
  case some.some fd fd' => exact withHandle_withHandle fd fd' bs
  all_goals rfl

-- The code of an instruction stays.
theorem getElem?_zero_withHandle? (fd : Option Fd) (bs : Bytes) : (withHandle? fd bs)[0]? = bs[0]? := by
  cases fd
  case none    => rfl
  case some fd =>
    match bs with
    | [] | [_] | [_, _] | [_, _, _] | _ :: _ :: _ :: _ :: _ => rfl

theorem code_of_ofBytes? {bs : Bytes} {load : Instruction} (h : Instruction.ofBytes? bs = some load) :
    bs[0]? = some load.code := by
  unfold Instruction.ofBytes? at h
  split at h <;> cases h
  rfl

theorem exists_ofBytes? {bs : Bytes} (h : Instruction.size ≤ bs.length) :
    ∃ load, Instruction.ofBytes? bs = some load := by
  unfold Instruction.ofBytes?
  split
  case h_1 => exact ⟨_, rfl⟩
  case h_2 hn =>
    match bs, h with
    | _ :: _ :: _ :: _ :: _ :: _ :: _ :: _ :: _, _ => exact (hn _ _ _ _ _ _ _ _ _ rfl).elim

variable {program : String} {maps : Table String Map} {code code' : Bytes} {l : MapLoad} {fd : Fd} {i : Nat}

-- There is room for both halves of a 64-bit load, and the first one has the code of such a load.
def IsLoad (code : Bytes) (i : Nat) : Prop :=
  Instruction.size * i + 2 * Instruction.size ≤ code.length ∧
    code[Instruction.size * i]? = some Instruction.loadImmediate64

instance : Decidable (IsLoad code i) := inferInstanceAs (Decidable (_ ∧ _))

-- Handles make no load and undo none.
theorem isLoad_withHandle? {handleOf : Nat → Option Fd} (hlen : code'.length = code.length)
    (h : ∀ i, code'.instruction i = withHandle? (handleOf i) (code.instruction i)) :
    IsLoad code' i ↔ IsLoad code i := by
  have hz : 0 < Instruction.size := by decide
  have hcode : code'[Instruction.size * i]? = code[Instruction.size * i]? := by
    have hi := congrArg (·[0]?) (h i)
    simpa only [getElem?_zero_withHandle?, Bytes.getElem?_instruction hz, Nat.add_zero] using hi
  rw [IsLoad, IsLoad, hlen, hcode]

theorem loadAt?_eq_some {load : Instruction} :
    loadAt? code (Instruction.size * i) = some load ↔ IsLoad code i ∧
      Instruction.ofBytes? ((code.drop (Instruction.size * i)).take (2 * Instruction.size)) = some load := by
  have hcode
      (h : Instruction.ofBytes? ((code.drop (Instruction.size * i)).take (2 * Instruction.size)) = some load) :
      code[Instruction.size * i]? = some load.code := by
    rw [← code_of_ofBytes? h, List.getElem?_take_of_lt (by decide), List.getElem?_drop, Nat.add_zero]
  simp only [loadAt?, Option.filter_eq_some_iff, Option.bind_eq_some_iff, Bytes.slice?_eq_some, decide_eq_true_eq]
  constructor
  case mp =>
    rintro ⟨⟨bs, ⟨hroom, rfl⟩, hload⟩, hl⟩
    exact ⟨⟨hroom, hl ▸ hcode hload⟩, hload⟩
  case mpr =>
    rintro ⟨⟨hroom, hl⟩, hload⟩
    exact ⟨⟨_, ⟨hroom, rfl⟩, hload⟩, Option.some.inj ((hcode hload).symm.trans hl)⟩

theorem exists_loadAt? (h : IsLoad code i) : ∃ load, loadAt? code (Instruction.size * i) = some load := by
  have hlen : Instruction.size ≤ ((code.drop (Instruction.size * i)).take (2 * Instruction.size)).length := by
    have := h.left
    simp only [List.length_take, List.length_drop]
    omega
  obtain ⟨load, hload⟩ := exists_ofBytes? hlen
  exact ⟨load, loadAt?_eq_some.mpr ⟨h, hload⟩⟩

theorem loadAt?_eq_none : loadAt? code (Instruction.size * i) = none ↔ ¬IsLoad code i := by
  constructor
  case mp =>
    intro hn hl
    obtain ⟨load, hload⟩ := exists_loadAt? hl
    cases hn.symm.trans hload
  case mpr =>
    intro hl
    cases hload : loadAt? code (Instruction.size * i)
    case none      => rfl
    case some load => exact absurd (loadAt?_eq_some.mp hload).left hl

theorem toBytes_of_loadAt? {load : Instruction} (fd : Fd) (h : loadAt? code (Instruction.size * i) = some load) :
    (resolve load fd).toBytes = withHandle fd (code.instruction i) := by
  rw [toBytes_resolve fd (loadAt?_eq_some.mp h).right, List.take_take]
  rfl

-- The handle for a load, if the map that it names has one.
def handle? (maps : Table String Map) (l : MapLoad) : Option Fd :=
  (maps.get? l.map).bind (·.handle.fd?)

theorem handle?_eq_some : handle? maps l = some fd ↔ ∃ m, maps.get? l.map = some m ∧ m.handle = .live fd := by
  have h (m : Map) : m.handle.fd? = some fd ↔ m.handle = .live fd := by cases m.handle <;> simp [Handle.fd?]
  simp only [handle?, Option.bind_eq_some_iff, h]

-- Why a load cannot be linked.
def fault? (program : String) (maps : Table String Map) (code : Bytes) (l : MapLoad) : Option Error :=
  match handle? maps l with
  | none   => some (.unresolvedReference program l.map)
  | some _ =>
    if positionLimit ≤ Instruction.size * l.index + 2 * Instruction.size then some .sizeOverflow
    else if IsLoad code l.index then none
    else some (.format (.notALoad program l.index))

-- The code with the handle in the instruction of a load.
def place (maps : Table String Map) (code : Bytes) (l : MapLoad) : Bytes :=
  match handle? maps l with
  | none    => code
  | some fd => code.patch (Instruction.size * l.index) (withHandle fd (code.instruction l.index))

theorem link_eq (program : String) (maps : Table String Map) (code : Bytes) (l : MapLoad) :
    link program maps code l =
      match fault? program maps code l with
      | some e => .error e
      | none   => .ok (place maps code l) := by
  unfold link fault? place handle?
  cases (maps.get? l.map).bind (·.handle.fd?)
  case none => rfl
  case some fd =>
    dsimp only
    rw [Nat.mul_comm l.index]
    split
    case isTrue  => rfl
    case isFalse =>
      cases hload : loadAt? code (Instruction.size * l.index)
      case none      => rw [if_neg (loadAt?_eq_none.mp hload)]
      case some load => rw [if_pos (loadAt?_eq_some.mp hload).left, ← toBytes_of_loadAt? fd hload]

theorem length_withHandle (fd : Fd) (h : IsLoad code i) :
    (withHandle fd (code.instruction i)).length = Instruction.size := by
  obtain ⟨load, hload⟩ := exists_loadAt? h
  rw [← toBytes_of_loadAt? fd hload, Instruction.length_toBytes]

theorem length_place (h : IsLoad code l.index) : (place maps code l).length = code.length := by
  unfold place
  split
  case h_1      => rfl
  case h_2 fd _ =>
    have hroom := h.left
    have hw := length_withHandle fd h
    exact Bytes.length_patch (by omega)

theorem instruction_place (h : IsLoad code l.index) (i : Nat) :
    (place maps code l).instruction i =
      withHandle? (if l.index = i then handle? maps l else none) (code.instruction i) := by
  have hroom := h.left
  unfold place
  split
  case h_1 hn => rw [hn, ite_self, withHandle?]
  case h_2 fd hfd =>
    have hw := length_withHandle fd h
    by_cases hi : l.index = i
    case pos =>
      rw [if_pos hi, hfd, withHandle?, ← hi]
      exact Bytes.instruction_patch_self hw (by omega)
    case neg =>
      rw [if_neg hi, withHandle?]
      exact Bytes.instruction_patch_of_ne hi hw (by omega)

theorem isLoad_place (h : IsLoad code l.index) : IsLoad (place maps code l) i ↔ IsLoad code i :=
  isLoad_withHandle? (length_place h) (instruction_place h)

-- Whether a load has a fault depends on the loads that the code has, and on nothing else of it.
theorem fault?_congr (h : ∀ i, IsLoad code' i ↔ IsLoad code i) :
    fault? program maps code' = fault? program maps code := by
  funext l
  simp only [fault?, h]

theorem fault?_eq_none : fault? program maps code l = none ↔
    (∃ fd, handle? maps l = some fd) ∧
      Instruction.size * l.index + 2 * Instruction.size < positionLimit ∧ IsLoad code l.index := by
  unfold fault?
  split
  case h_1 hn => simp [hn]
  case h_2 fd hfd => split <;> grind

-- The loads are linked one after the other, but a fault of one is a fault of it in the code as it was.
theorem foldlM_link (program : String) (maps : Table String Map) (loads : List MapLoad) (code : Bytes) :
    loads.foldlM (link program maps) code =
      match loads.findSome? (fault? program maps code) with
      | some e => .error e
      | none   => .ok (loads.foldl (place maps) code) := by
  induction loads generalizing code
  case nil => rfl
  case cons l loads ih =>
    rw [List.foldlM_cons, link_eq, List.findSome?_cons]
    cases hf : fault? program maps code l
    case some e => rfl
    case none   =>
      dsimp only
      rw [ok_bind, ih, fault?_congr fun i => isLoad_place (fault?_eq_none.mp hf).right.right, List.foldl_cons]

-- The handle for an instruction: that of the last load of it.
def handleAt? (maps : Table String Map) (loads : List MapLoad) (i : Nat) : Option Fd :=
  loads.reverse.findSome? fun l => if l.index = i then handle? maps l else none

theorem handleAt?_append (before loads : List MapLoad) (i : Nat) :
    handleAt? maps (before ++ loads) i = (handleAt? maps loads i).or (handleAt? maps before i) := by
  simp only [handleAt?, List.reverse_append, List.findSome?_append]

theorem handleAt?_cons (l : MapLoad) (loads : List MapLoad) (i : Nat) :
    handleAt? maps (l :: loads) i =
      (handleAt? maps loads i).or (if l.index = i then handle? maps l else none) := by
  simp [handleAt?, List.findSome?_append]

theorem foldl_place {loads : List MapLoad} (h : ∀ l ∈ loads, IsLoad code l.index) :
    (loads.foldl (place maps) code).length = code.length ∧
      ∀ i, (loads.foldl (place maps) code).instruction i =
        withHandle? (handleAt? maps loads i) (code.instruction i) := by
  induction loads generalizing code
  case nil => exact ⟨rfl, fun i => rfl⟩
  case cons l loads ih =>
    obtain ⟨hl, h⟩ := List.forall_mem_cons.mp h
    have hrest : ∀ l' ∈ loads, IsLoad (place maps code l) l'.index := fun l' hl' => (isLoad_place hl).mpr (h l' hl')
    obtain ⟨hlen, hi⟩ := ih hrest
    refine ⟨by rw [List.foldl_cons, hlen, length_place hl], fun i => ?_⟩
    rw [List.foldl_cons, hi, instruction_place hl, withHandle?_withHandle?, handleAt?_cons]

theorem handleAt?_of_forall_ne {loads : List MapLoad} (h : ∀ l ∈ loads, l.index ≠ i) :
    handleAt? maps loads i = none := by
  simp only [handleAt?, List.findSome?_eq_none_iff, List.mem_reverse]
  exact fun l hl => if_neg (h l hl)

-- The last load of an instruction comes before those in front of it.
theorem handleAt?_append_cons {before after : List MapLoad} (h : ∀ l' ∈ after, l'.index ≠ l.index) :
    handleAt? maps (before ++ l :: after) l.index = (handle? maps l).or (handleAt? maps before l.index) := by
  rw [handleAt?_append, handleAt?_cons, handleAt?_of_forall_ne h, if_pos rfl, Option.none_or]

theorem handleAt?_of_mem {loads : List MapLoad} (hd : loads.Pairwise (·.index ≠ ·.index)) (hl : l ∈ loads) :
    handleAt? maps loads l.index = handle? maps l := by
  obtain ⟨before, after, rfl⟩ := List.append_of_mem hl
  obtain ⟨_, hafter, hbefore⟩ := List.pairwise_append.mp hd
  have hne := (List.pairwise_cons.mp hafter).left
  rw [handleAt?_append_cons fun l' hl' => (hne l' hl').symm,
    handleAt?_of_forall_ne fun l' hl' => hbefore l' hl' l List.mem_cons_self, Option.or_none]

end Linking

namespace ProgramDefinition

open Linking

variable {d : ProgramDefinition} {maps : Table String Map} {code : Bytes}

-- The first load that has a fault in the definition's own code decides how linking ends.
theorem relocate_eq (d : ProgramDefinition) (maps : Table String Map) :
    d.relocate maps =
      match d.loads.findSome? (fault? d.name maps d.code) with
      | some e => .error e
      | none   => .ok (d.loads.foldl (place maps) d.code) :=
  foldlM_link ..

theorem relocate_eq_ok_iff : d.relocate maps = .ok code ↔
    (∀ l ∈ d.loads, fault? d.name maps d.code l = none) ∧ code = d.loads.foldl (place maps) d.code := by
  rw [relocate_eq, ← List.findSome?_eq_none_iff]
  cases d.loads.findSome? (fault? d.name maps d.code) <;> simp [eq_comm]

theorem instruction_relocate (h : d.relocate maps = .ok code) :
    code.length = d.code.length ∧
      ∀ i, code.instruction i = withHandle? (handleAt? maps d.loads i) (d.code.instruction i) := by
  obtain ⟨hf, rfl⟩ := relocate_eq_ok_iff.mp h
  exact foldl_place fun l hl => (fault?_eq_none.mp (hf l hl)).right.right

-- Each load has its map's handle, and all other instructions are those of the definition.
theorem relocate_eq_ok (hd : d.loads.Pairwise (·.index ≠ ·.index)) (h : d.relocate maps = .ok code) :
    code.length = d.code.length ∧
      (∀ l ∈ d.loads, ∃ m fd, maps.get? l.map = some m ∧ m.handle = .live fd ∧
        code.instruction l.index = withHandle fd (d.code.instruction l.index)) ∧
      ∀ i, (∀ l ∈ d.loads, l.index ≠ i) → code.instruction i = d.code.instruction i := by
  obtain ⟨hlen, hi⟩ := instruction_relocate h
  refine ⟨hlen, fun l hl => ?_, fun i hn => ?_⟩
  case refine_1 =>
    obtain ⟨⟨fd, hfd⟩, _⟩ := fault?_eq_none.mp ((relocate_eq_ok_iff.mp h).left l hl)
    obtain ⟨m, hm, hlive⟩ := handle?_eq_some.mp hfd
    exact ⟨m, fd, hm, hlive, by rw [hi, handleAt?_of_mem hd hl, hfd, withHandle?]⟩
  case refine_2 => rw [hi, handleAt?_of_forall_ne hn, withHandle?]

end ProgramDefinition

end EbpfManager
