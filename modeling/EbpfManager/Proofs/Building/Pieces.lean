import EbpfManager.Object.Description
import EbpfManager.Proofs.Elf.Tables
import EbpfManager.Proofs.Objects.Functions
import Mathlib.Data.List.Induction
import Mathlib.Data.List.Nodup

namespace EbpfManager

section Lists

variable {α β : Type} {as : List α} {a : α}

theorem find?_of_unique {p : α → Bool} (ha : a ∈ as) (hp : p a) (hu : ∀ b ∈ as, p b → b = a) :
    as.find? p = some a := by
  cases hf : as.find? p
  case none => exact absurd hp (List.find?_eq_none.mp hf a ha)
  case some b => rw [hu b (List.mem_of_find?_eq_some hf) (List.find?_some hf)]

-- Only one member makes a contribution.
theorem flatMap_of_unique {f : α → List β} (hn : as.Nodup) (ha : a ∈ as)
    (hu : ∀ b ∈ as, b ≠ a → f b = []) : as.flatMap f = f a := by
  obtain ⟨front, rest, rfl⟩ := List.append_of_mem ha
  rw [List.nodup_append, List.nodup_cons] at hn
  obtain ⟨_, ⟨hr, _⟩, hd⟩ := hn
  have hfront : front.flatMap f = [] := List.flatMap_eq_nil_iff.mpr fun b hb =>
    hu b (List.mem_append_left _ hb) (hd b hb a List.mem_cons_self)
  have hrest : rest.flatMap f = [] := List.flatMap_eq_nil_iff.mpr fun b hb =>
    hu b (List.mem_append_right _ (List.mem_cons_of_mem _ hb)) fun he => hr (he ▸ hb)
  rw [List.flatMap_append, List.flatMap_cons, hfront, hrest, List.nil_append, List.append_nil]

theorem nodup_zipIdx (as : List α) : as.zipIdx.Nodup :=
  (pairwise_zipIdx as 0).imp fun {a b} hne (he : a = b) => hne (congrArg Prod.snd he)

end Lists

theorem Bytes.slice?_append_left {bs piece : Bytes} {start count : Nat} (h : bs.slice? start count = some piece)
    (rest : Bytes) : (bs ++ rest).slice? start count = some piece := by
  obtain ⟨hl, rfl⟩ := slice?_eq_some.mp h
  refine slice?_eq_some.mpr ⟨by rw [List.length_append]; omega, ?_⟩
  have hd : count ≤ (bs.drop start).length := by
    rw [List.length_drop]
    omega
  rw [List.drop_append_of_le_length (by omega), List.take_append_of_le_length hd]

namespace Object

open Elf

variable {alignment : Nat} {α : Type} {code : α → Bytes} {as : List α} {a : α × Nat}

theorem layOut_concat (alignment : Nat) (pieces : List Bytes) (piece : Bytes) :
    layOut alignment (pieces ++ [piece]) = append alignment (layOut alignment pieces) piece := by
  rw [layOut, List.foldl_append]
  rfl

-- What is laid out, and where the piece of each begins.
def laid (alignment : Nat) (code : α → Bytes) (as : List α) : List (α × Nat) :=
  as.zipIdx.map fun (a, position) => (a, offsetBehind alignment ((as.take position).map code))

theorem laid_concat (alignment : Nat) (code : α → Bytes) (as : List α) (a : α) :
    laid alignment code (as ++ [a]) =
      laid alignment code as ++ [(a, offsetBehind alignment (as.map code))] := by
  have hm : ∀ b ∈ as.zipIdx, (b.1, offsetBehind alignment (((as ++ [a]).take b.2).map code)) =
      (b.1, offsetBehind alignment ((as.take b.2).map code)) := by
    intro b hb
    have hl : b.2 ≤ as.length := Nat.le_of_lt (List.snd_lt_of_mem_zipIdx hb)
    rw [List.take_append_of_le_length hl]
  rw [laid, List.zipIdx_append, List.map_append, List.map_congr_left hm]
  simp [laid]

theorem map_fst_laid (alignment : Nat) (code : α → Bytes) (as : List α) :
    (laid alignment code as).map Prod.fst = as := by
  rw [laid, List.map_map]
  exact List.zipIdx_map_fst 0 as

theorem fst_mem_of_mem_laid (h : a ∈ laid alignment code as) : a.1 ∈ as := by
  rw [← map_fst_laid alignment code as]
  exact List.mem_map_of_mem h

-- Pieces that are picked out keep their order.
theorem map_filter_eq_laid (alignment : Nat) (code : α → Bytes) (p : α → Bool) (as : List α) :
    (as.zipIdx.filter (p ·.1)).map (fun (a, position) =>
      (a, offsetBehind alignment (((as.take position).filter p).map code))) =
      laid alignment code (as.filter p) := by
  induction as using List.reverseRecOn
  case nil => rfl
  case append_singleton as a ih =>
    have hm : ∀ b ∈ as.zipIdx.filter (p ·.1),
        (b.1, offsetBehind alignment ((((as ++ [a]).take b.2).filter p).map code)) =
          (b.1, offsetBehind alignment (((as.take b.2).filter p).map code)) := by
      intro b hb
      have hl : b.2 ≤ as.length := Nat.le_of_lt (List.snd_lt_of_mem_zipIdx (List.mem_filter.mp hb).left)
      rw [List.take_append_of_le_length hl]
    rw [List.zipIdx_append, List.filter_append, List.map_append, List.map_congr_left hm, ih, List.filter_append]
    cases hp : p a
    case false => simp [hp]
    case true => simp [hp, laid_concat]

theorem slice?_laid (h0 : alignment ≠ 0) (h : a ∈ laid alignment code as) :
    (layOut alignment (as.map code)).slice? a.2 (code a.1).length = some (code a.1) := by
  induction as using List.reverseRecOn
  case nil => cases h
  case append_singleton as b ih =>
    rw [laid_concat, List.mem_append, List.mem_singleton] at h
    rw [List.map_append, List.map_singleton, layOut_concat, append]
    cases h
    case inl h =>
      rw [List.append_assoc]
      exact Bytes.slice?_append_left (ih h) _
    case inr h =>
      subst h
      refine Bytes.slice?_of_eq _ [] (List.append_nil _).symm ?_ rfl
      have hle := le_roundUp (n := (layOut alignment (as.map code)).length) h0
      rw [List.length_append, List.length_replicate, Nat.add_sub_cancel' hle]
      rfl

theorem add_length_le (h0 : alignment ≠ 0) (h : a ∈ laid alignment code as) :
    a.2 + (code a.1).length ≤ (layOut alignment (as.map code)).length :=
  (Bytes.slice?_eq_some.mp (slice?_laid h0 h)).left

theorem pairwise_laid (h0 : alignment ≠ 0) (code : α → Bytes) (as : List α) :
    (laid alignment code as).Pairwise fun a b => a.2 + (code a.1).length ≤ b.2 := by
  induction as using List.reverseRecOn
  case nil => exact .nil
  case append_singleton as b ih =>
    rw [laid_concat]
    refine List.pairwise_append.mpr ⟨ih, List.pairwise_singleton .., fun a ha b hb => ?_⟩
    rw [List.mem_singleton.mp hb]
    exact (add_length_le h0 ha).trans (le_roundUp h0)

variable {b : α × Nat}

-- No two pieces have the same octet.
theorem eq_of_mem_laid {offset : Nat} (h0 : alignment ≠ 0) (ha : a ∈ laid alignment code as)
    (hb : b ∈ laid alignment code as) (hoa : a.2 ≤ offset ∧ offset < a.2 + (code a.1).length)
    (hob : b.2 ≤ offset ∧ offset < b.2 + (code b.1).length) : a = b := by
  have hp : (laid alignment code as).Pairwise fun a b =>
      a.2 + (code a.1).length ≤ b.2 ∨ b.2 + (code b.1).length ≤ a.2 :=
    (pairwise_laid h0 code as).imp Or.inl
  obtain ⟨i, ha⟩ := List.mem_iff_getElem?.mp ha
  obtain ⟨j, hb⟩ := List.mem_iff_getElem?.mp hb
  by_contra hne
  have hij : i ≠ j := fun he => hne (Option.some_inj.mp (ha.symm.trans (he ▸ hb)))
  cases pairwise_getElem? Or.symm hp ha hb hij
  all_goals omega

section Codes

variable (h0 : alignment ≠ 0) (hc : ∀ a ∈ as, code a ≠ [])

include h0 hc

theorem laid_ascending : (laid alignment code as).Pairwise (·.2 < ·.2) := by
  refine (pairwise_laid h0 code as).imp_of_mem fun ha _ hle => ?_
  have hl := List.length_pos_of_ne_nil (hc _ (fst_mem_of_mem_laid ha))
  omega

theorem laid_nodup : (laid alignment code as).Nodup :=
  (laid_ascending h0 hc).imp fun {a b} hlt (he : a = b) => Nat.ne_of_lt hlt (congrArg Prod.snd he)

theorem eq_of_offset (ha : a ∈ laid alignment code as) (hb : b ∈ laid alignment code as) (ho : a.2 = b.2) :
    a = b := by
  have hla := List.length_pos_of_ne_nil (hc _ (fst_mem_of_mem_laid ha))
  have hlb := List.length_pos_of_ne_nil (hc _ (fst_mem_of_mem_laid hb))
  exact eq_of_mem_laid h0 ha hb ⟨Nat.le_refl _, by omega⟩ (by omega)

end Codes

section Ranges

variable {symbols : List Symbol} {number length : Nat} {kind : Option SymbolKind} {name : α → String}

-- The mark at the beginning of a piece, and the range.
def pieceMark (code : α → Bytes) (name : α → String) (a : α × Nat) : Mark :=
  ⟨a.2, (code a.1).length, name a.1⟩

def pieceRange (code : α → Bytes) (name : α → String) (a : α × Nat) : Range :=
  ⟨a.2, a.2 + (code a.1).length, name a.1⟩

theorem marks_eq {ms : List Mark} (hm : symbols.filterMap (mark? number kind) = ms)
    (hs : ms.Pairwise (·.address < ·.address)) : marks symbols number kind = ms := by
  have hle : ms.Pairwise fun m m' => decide (m.address ≤ m'.address) = true :=
    hs.imp fun h => decide_eq_true (Nat.le_of_lt h)
  rw [marks, hm, List.mergeSort_of_pairwise hle, firsts_eq_self hs]

theorem rangesOf_eq {as : List (α × Nat)} (hc : ∀ a ∈ as, code a.1 ≠ [])
    (hl : ∀ a ∈ as, a.2 + (code a.1).length < Bytes.limit 8) :
    rangesOf length (as.map (pieceMark code name)) = .ok (as.map (pieceRange code name)) := by
  induction as
  case nil => rfl
  case cons a as ih =>
    have hs : (pieceMark code name a).stop length (as.map (pieceMark code name)) = a.2 + (code a.1).length :=
      if_neg (mt List.length_eq_zero_iff.mp (hc a List.mem_cons_self))
    rw [List.map_cons, rangesOf_cons_eq_ok, hs]
    exact ⟨hl a List.mem_cons_self, _, ih (fun a ha => hc a (List.mem_cons_of_mem _ ha))
      (fun a ha => hl a (List.mem_cons_of_mem _ ha)), rfl⟩

theorem ranges_laid (h0 : alignment ≠ 0) (hc : ∀ a ∈ as, code a ≠ [])
    (hl : (layOut alignment (as.map code)).length < Bytes.limit 8)
    (hm : symbols.filterMap (mark? number kind) = (laid alignment code as).map (pieceMark code name)) :
    ranges symbols number length kind = .ok ((laid alignment code as).map (pieceRange code name)) := by
  have hp : ((laid alignment code as).map (pieceMark code name)).Pairwise (·.address < ·.address) :=
    List.pairwise_map.mpr (laid_ascending h0 hc)
  rw [ranges, marks_eq hm hp]
  exact rangesOf_eq (fun a ha => hc _ (fst_mem_of_mem_laid ha)) fun a ha => (add_length_le h0 ha).trans_lt hl

end Ranges

end Object

end EbpfManager
