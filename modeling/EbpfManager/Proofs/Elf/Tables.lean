import EbpfManager.Elf.Writer
import EbpfManager.Proofs.Utf8
import Mathlib.Algebra.GroupWithZero.Nat

namespace EbpfManager

theorem eq_take_append_cons {α : Type} {as : List α} {a : α} {position : Nat} (h : as[position]? = some a) :
    as = as.take position ++ a :: as.drop (position + 1) := by
  obtain ⟨hp, rfl⟩ := List.getElem?_eq_some_iff.mp h
  rw [← List.drop_eq_getElem_cons hp, List.take_append_drop]

namespace Bytes

variable {bs piece : Bytes} {start count size : Nat}

-- A piece in its place.
theorem slice?_of_eq (before after : Bytes) (h : bs = before ++ piece ++ after) (hs : start = before.length)
    (hc : count = piece.length) : bs.slice? start count = some piece := by
  rw [slice?_eq_some]
  subst h hs hc
  constructor
  case left => simp [List.length_append]
  case right => rw [List.append_assoc, List.drop_left, List.take_left]

theorem length_flatten {records : List Bytes} (h : ∀ r ∈ records, r.length = size) :
    records.flatten.length = records.length * size := by
  rw [List.length_flatten, List.map_congr_left h, List.map_const', List.sum_replicate_nat]

theorem chunks_flatten {records : List Bytes} (h0 : size ≠ 0) (h : ∀ r ∈ records, r.length = size) :
    Bytes.chunks size records.flatten = records := by
  have hp (rest : Bytes) : pieces size records.length (records.flatten ++ rest) = records := by
    induction records generalizing rest
    case nil => rfl
    case cons r records ih =>
      have hr := h r List.mem_cons_self
      have ih := ih (fun r hr => h r (List.mem_cons_of_mem _ hr)) rest
      rw [List.flatten_cons, List.append_assoc, List.length_cons, pieces, List.take_left' hr,
        List.drop_left' hr, ih]
  rw [chunks, length_flatten h, Nat.mul_div_cancel _ (Nat.pos_of_ne_zero h0)]
  simpa using hp []

theorem beforeZero_append (h : 0 ∉ bs) (rest : Bytes) : beforeZero (bs ++ rest) = bs ++ beforeZero rest :=
  List.takeWhile_append_of_pos fun b hb => by simpa using fun he : b = 0 => h (he ▸ hb)

theorem terminated?_of_not_mem (h : 0 ∉ bs) (rest : Bytes) : terminated? (bs ++ 0 :: rest) = some bs := by
  rw [terminated?, if_pos (by simp), beforeZero_append h]
  simp [beforeZero]

end Bytes

namespace Elf

variable {f : Format}

theorem length_fields (numbers : List (Nat × Nat)) : (fields numbers).length = (numbers.map Prod.fst).sum := by
  simp [fields, List.length_flatMap]

theorem fields_append (numbers numbers' : List (Nat × Nat)) :
    fields (numbers ++ numbers') = fields numbers ++ fields numbers' :=
  List.flatMap_append

-- Numbers that their fields have room for.
theorem fields?_append {widths : List Nat} (numbers : List (Nat × Nat)) (ho : f.order = .little)
    (hw : widths = numbers.map Prod.fst) (hn : ∀ n ∈ numbers, n.2 < Bytes.limit n.1)
    (rest : Bytes) : f.fields? widths (fields numbers ++ rest) = some (numbers.map Prod.snd) := by
  subst hw
  induction numbers
  case nil => rfl
  case cons n numbers ih =>
    obtain ⟨width, n⟩ := n
    have hs : fields ((width, n) :: numbers) ++ rest = Bytes.ofNat width n ++ (fields numbers ++ rest) := by
      simp [fields]
    have hp : (Bytes.ofNat width n ++ (fields numbers ++ rest)).slice? 0 width = some (Bytes.ofNat width n) :=
      Bytes.slice?_of_eq [] _ rfl rfl (by simp)
    have hd : (Bytes.ofNat width n ++ (fields numbers ++ rest)).drop width = fields numbers ++ rest :=
      List.drop_left' (Bytes.length_ofNat ..)
    have hb : n < Bytes.limit width := hn _ List.mem_cons_self
    rw [hs, List.map_cons, Format.fields?, hp, hd]
    have hr := ih fun n h => hn n (List.mem_cons_of_mem _ h)
    simp [hr, ho, ByteOrder.toNat, Bytes.toNat_ofNat, Nat.mod_eq_of_lt hb]

theorem fields?_eq {widths : List Nat} (numbers : List (Nat × Nat)) (ho : f.order = .little)
    (hw : widths = numbers.map Prod.fst) (hn : ∀ n ∈ numbers, n.2 < Bytes.limit n.1) :
    f.fields? widths (fields numbers) = some (numbers.map Prod.snd) := by
  simpa only [List.append_nil] using fields?_append numbers ho hw hn []

section Alignment

variable {alignment n : Nat}

theorem dvd_roundUp : alignment ∣ roundUp alignment n :=
  Nat.dvd_mul_left ..

theorem le_roundUp (h : alignment ≠ 0) : n ≤ roundUp alignment n := by
  have hd := Nat.div_add_mod (n + (alignment - 1)) alignment
  have hm := Nat.mod_lt (n + (alignment - 1)) (Nat.pos_of_ne_zero h)
  unfold roundUp
  rw [Nat.mul_comm]
  omega

end Alignment

section Names

variable {names : List String} {name : String} {position : Nat}

theorem nameTable_append (names names' : List String) :
    nameTable (names ++ names') = nameTable names ++ names'.flatMap fun name => Text.encode name ++ [0] := by
  simp [nameTable]

theorem length_lt_nameTable (names : List String) : names.length < (nameTable names).length := by
  induction names
  case nil => simp [nameTable]
  case cons name names ih =>
    simp only [nameTable, List.length_cons, List.flatMap_cons, List.length_append] at ih ⊢
    omega

-- A name ends in a zero, so that there is always something behind the place where it begins.
theorem nameTable_eq (h : names[position]? = some name) : ∃ rest,
    nameTable names = nameTable (names.take position) ++ (Text.encode name ++ 0 :: rest) := by
  refine ⟨(names.drop (position + 1)).flatMap fun name => Text.encode name ++ [0], ?_⟩
  rw [congrArg nameTable (eq_take_append_cons h), nameTable_append, List.flatMap_cons, List.append_assoc,
    List.singleton_append]

theorem nameOffset_lt (h : position < names.length) : nameOffset names position < (nameTable names).length := by
  obtain ⟨rest, hn⟩ := nameTable_eq (List.getElem?_eq_getElem h)
  rw [hn, nameOffset, List.length_append, List.length_append, List.length_cons]
  omega

theorem name?_nameTable (hz : '\x00' ∉ name.toList) (h : names[position]? = some name) :
    NameTable.name? (some (nameTable names)) (nameOffset names position) = some (Text.encode name) := by
  obtain ⟨rest, hn⟩ := nameTable_eq h
  rw [NameTable.name?, Option.bind_some, hn, nameOffset, List.drop_left]
  exact Bytes.terminated?_of_not_mem (Text.zero_not_mem_encode hz) rest

theorem name?_zero (names : List String) : NameTable.name? (some (nameTable names)) 0 = some [] :=
  Bytes.terminated?_of_not_mem List.not_mem_nil _

end Names

end Elf

end EbpfManager
