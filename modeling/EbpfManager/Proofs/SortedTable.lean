import EbpfManager.Table
import Mathlib.Algebra.BigOperators.Group.Multiset.Basic
import Mathlib.Data.String.Basic
import Mathlib.Order.Defs.LinearOrder

namespace EbpfManager.Table

variable {κ ν : Type}

section Lookup

variable [DecidableEq κ] {t : Table κ ν} {k : κ} {v : ν}

theorem mem_of_get? (h : t.get? k = some v) : (k, v) ∈ t.entries := by
  obtain ⟨e, he, hv⟩ := Option.map_eq_some_iff.mp h
  have hk : e.1 = k := by simpa using List.find?_some he
  exact hk ▸ hv ▸ List.mem_of_find?_eq_some he

theorem mem_values_of_get? (h : t.get? k = some v) : v ∈ t.values :=
  List.mem_map_of_mem (mem_of_get? h)

theorem get?_eq_none_iff : t.get? k = none ↔ k ∉ t.keys := by
  simp [get?, keys]
  grind

theorem contains_iff : t.contains k ↔ k ∈ t.keys := by
  rw [contains, ← not_iff_not, Bool.not_eq_true, Option.isSome_eq_false_iff, Option.isNone_iff_eq_none,
    get?_eq_none_iff]

@[simp] theorem get?_cons (e : κ × ν) (rest : List (κ × ν)) :
    (⟨e :: rest⟩ : Table κ ν).get? k = if e.1 = k then some e.2 else get? ⟨rest⟩ k := by
  by_cases h : e.1 = k <;> simp [get?, h]

@[simp] theorem entries_erase_cons (e : κ × ν) (rest : List (κ × ν)) :
    (erase ⟨e :: rest⟩ k).entries =
      if e.1 = k then (erase ⟨rest⟩ k).entries else e :: (erase ⟨rest⟩ k).entries := by
  by_cases h : e.1 = k <;> simp [erase, h]

theorem keys_erase_subset : (t.erase k).keys ⊆ t.keys :=
  (List.filter_sublist.map _).subset

theorem values_erase_subset : (t.erase k).values ⊆ t.values :=
  (List.filter_sublist.map _).subset

-- There is nothing to take out.
theorem erase_of_get?_eq_none (h : t.get? k = none) : t.erase k = t := by
  have hk := get?_eq_none_iff.mp h
  simp only [keys, List.mem_map, not_exists, not_and] at hk
  simp only [erase]
  congr
  exact List.filter_eq_self.mpr fun e he => by simpa using hk e he

section

-- Entries that change in their places.
variable {r : ν → ν → Prop} {t' : Table κ ν}
  (h : List.Forall₂ (fun e e' => e.1 = e'.1 ∧ r e.2 e'.2) t.entries t'.entries)

include h

omit [DecidableEq κ] in
theorem keys_of_forall₂ : t'.keys = t.keys := by
  obtain ⟨entries⟩ := t
  obtain ⟨entries'⟩ := t'
  dsimp only at h
  induction h
  case nil => rfl
  case cons he _ ih =>
    simp only [keys, List.map_cons] at ih ⊢
    rw [ih, he.left]

omit [DecidableEq κ] in
theorem exists_of_forall₂ {v' : ν} (hv : v' ∈ t'.values) : ∃ v ∈ t.values, r v v' := by
  obtain ⟨entries⟩ := t
  obtain ⟨entries'⟩ := t'
  dsimp only at h
  induction h
  case nil => cases hv
  case cons e e' _ _ he _ ih =>
    cases List.mem_cons.mp hv
    case inl hv => exact ⟨e.2, List.mem_cons_self, hv ▸ he.right⟩
    case inr hv =>
      obtain ⟨v, hm, hr⟩ := ih hv
      exact ⟨v, List.mem_cons_of_mem _ hm, hr⟩

theorem get?_of_forall₂ (hg : t.get? k = some v) : ∃ v', t'.get? k = some v' ∧ r v v' := by
  obtain ⟨entries⟩ := t
  obtain ⟨entries'⟩ := t'
  dsimp only at h
  induction h
  case nil => cases hg
  case cons e e' _ _ he _ ih =>
    simp only [get?_cons] at hg ⊢
    rw [← he.left]
    split at hg
    case isTrue hk => cases hg; exact ⟨e'.2, if_pos hk, he.right⟩
    case isFalse hk => simpa [hk] using ih hg

end

end Lookup

section Total

variable {γ : Type} {share : ν → Multiset γ}

-- What the values of a table have, all together.
def total (share : ν → Multiset γ) (t : Table κ ν) : Multiset γ :=
  (t.values.map share).sum

theorem total_eq_sum (t : Table κ ν) : t.total share = (t.entries.map (share ·.2)).sum := by
  simp [total, values, Function.comp_def]

@[simp] theorem total_empty : (empty : Table κ ν).total share = 0 :=
  rfl

theorem total_eq_of_perm {t rest : Table κ ν} {k : κ} {v : ν}
    (h : t.entries.Perm ((k, v) :: rest.entries)) :
    t.total share = share v + rest.total share := by
  have h := (h.map Prod.snd).map share
  simpa [total, values] using h.sum_eq

theorem total_eq_zero {t : Table κ ν} (h : ∀ v ∈ t.values, share v = 0) : t.total share = 0 := by
  refine List.sum_eq_zero fun x hx => ?_
  obtain ⟨v, hv, he⟩ := List.mem_map.mp hx
  exact he ▸ h v hv

end Total

-- What a key leads to after one entry was taken out, and after one was set.
theorem forall_get?_erase [DecidableEq κ] {t : Table κ ν} {p : κ → ν → Prop}
    (h : ∀ k v, t.get? k = some v → p k v) (k : κ) : ∀ k' v', (t.erase k).get? k' = some v' → p k' v' := by
  intro k' v' hg
  rw [get?_erase] at hg
  split at hg
  case isTrue  => cases hg
  case isFalse => exact h k' v' hg

variable [LT κ] {t : Table κ ν} {k : κ} {v : ν}

theorem forall_get?_insert [DecidableEq κ] [DecidableLT κ] {p : κ → ν → Prop}
    (h : ∀ k v, t.get? k = some v → p k v) (hv : p k v) :
    ∀ k' v', (t.insert k v).get? k' = some v' → p k' v' := by
  intro k' v' hg
  rw [get?_insert] at hg
  split at hg
  case isTrue he => exact he ▸ Option.some.inj hg ▸ hv
  case isFalse   => exact h k' v' hg

def Sorted (t : Table κ ν) : Prop :=
  t.keys.Pairwise (· < ·)

theorem sorted_empty : (empty : Table κ ν).Sorted :=
  List.Pairwise.nil

namespace Sorted

-- Only the keys matter.
theorem of_keys {ν' : Type} {t' : Table κ ν'} (s : t.Sorted) (h : t'.keys = t.keys) :
    t'.Sorted := by
  rwa [Sorted, h]

theorem cons {e : κ × ν} {rest : List (κ × ν)} (s : Sorted ⟨e :: rest⟩) :
    (∀ k ∈ keys (⟨rest⟩ : Table κ ν), e.1 < k) ∧ Sorted (⟨rest⟩ : Table κ ν) :=
  List.pairwise_cons.mp s

variable [DecidableEq κ]

theorem erase (s : t.Sorted) (k : κ) : (t.erase k).Sorted :=
  s.sublist <| List.filter_sublist.map _

variable [IsStrictTotalOrder κ (· < ·)]

omit [DecidableEq κ] in
theorem nodup_keys (s : t.Sorted) : t.keys.Nodup :=
  have ne {k k' : κ} (h : k < k') : k ≠ k' := fun he => irrefl_of (· < ·) k' (he ▸ h)
  List.Pairwise.imp ne s

theorem get?_of_lt (h : ∀ k' ∈ t.keys, k < k') : t.get? k = none :=
  get?_eq_none_iff.mpr fun hm => irrefl_of (· < ·) k (h k hm)

-- Looking up a key finds the one entry that has it.
theorem get?_of_mem (s : t.Sorted) (h : (k, v) ∈ t.entries) : t.get? k = some v := by
  obtain ⟨entries⟩ := t
  induction entries
  case nil => simp at h
  case cons e rest ih =>
    obtain ⟨hlt, hs⟩ := s.cons
    cases List.mem_cons.mp h
    case inl he => simp [← he]
    case inr hm =>
      have hk : e.1 ≠ k := fun he => irrefl_of (· < ·) k (he ▸ hlt k (List.mem_map_of_mem hm))
      simpa [hk] using ih hs hm

-- Two tables in which every key leads to the same are the same.
theorem ext {t' : Table κ ν} (s : t.Sorted) (s' : t'.Sorted) (h : ∀ k, t.get? k = t'.get? k) :
    t = t' := by
  have hm (e : κ × ν) : e ∈ t.entries ↔ e ∈ t'.entries := by
    constructor
    case mp => exact fun he => mem_of_get? <| h e.1 ▸ s.get?_of_mem he
    case mpr => exact fun he => mem_of_get? <| (h e.1).symm ▸ s'.get?_of_mem he
  -- The entries are the same, and there is only one order in which the keys go up.
  have hp := (List.perm_ext_iff_of_nodup s.nodup_keys.of_map s'.nodup_keys.of_map).mpr hm
  have hs : t.entries.Pairwise (fun e e' => e.1 < e'.1) := List.pairwise_map.mp s
  have hs' : t'.entries.Pairwise (fun e e' => e.1 < e'.1) := List.pairwise_map.mp s'
  have he : t.entries = t'.entries := hp.eq_of_pairwise
    (fun a b _ _ hab hba => absurd (trans_of (· < ·) hab hba) (irrefl_of (· < ·) a.1)) hs hs'
  cases t
  cases t'
  cases he
  rfl

-- Behind an entry all keys are greater: taking out the entries with a key takes out one.
theorem erase_perm (s : t.Sorted) (h : t.get? k = some v) :
    t.entries.Perm ((k, v) :: (t.erase k).entries) := by
  obtain ⟨entries⟩ := t
  induction entries
  case nil => simp [get?] at h
  case cons e rest ih =>
    obtain ⟨hlt, hs⟩ := s.cons
    by_cases hk : e.1 = k <;> simp only [get?_cons, entries_erase_cons, hk, if_true, if_false] at h ⊢
    case pos =>
      have he : e = (k, v) := Prod.ext hk (Option.some.inj h)
      rw [he, erase_of_get?_eq_none (get?_of_lt (hk ▸ hlt))]
    case neg => exact ((ih hs h).cons e).trans (List.Perm.swap ..)

variable [DecidableLT κ]

theorem insert_perm (s : t.Sorted) (k : κ) (v : ν) :
    (t.insert k v).entries.Perm ((k, v) :: (t.erase k).entries) := by
  obtain ⟨entries⟩ := t
  induction entries
  case nil => simp [Table.insert, insertEntry, Table.erase]
  case cons e rest ih =>
    obtain ⟨hlt, hs⟩ := s.cons
    simp only [Table.insert, insertEntry, entries_erase_cons] at ih ⊢
    split
    -- An entry with the key is replaced, and none behind it has the key.
    case isTrue hk => simp [hk, erase_of_get?_eq_none (get?_of_lt hlt)]
    case isFalse hk =>
      rw [if_neg (Ne.symm hk)]
      split
      case isTrue hl =>
        -- The new entry goes before all others, none of which has the key.
        have behind : ∀ k' ∈ keys (⟨rest⟩ : Table κ ν), k < k' :=
          fun k' hk' => trans_of (· < ·) hl (hlt k' hk')
        simp [erase_of_get?_eq_none (get?_of_lt behind)]
      case isFalse => exact ((ih hs).cons e).trans (List.Perm.swap ..)

theorem forall_insert {p : ν → Prop} (s : t.Sorted) (k : κ) (h : ∀ v ∈ t.values, p v) (hv : p v) :
    ∀ v' ∈ (t.insert k v).values, p v' := by
  intro v' hm
  have hm := ((s.insert_perm k v).map Prod.snd).mem_iff.mp hm
  cases List.mem_cons.mp hm
  case inl he => exact he ▸ hv
  case inr hm => exact h v' <| values_erase_subset hm

-- A key that is there already takes no more room.
theorem size_insert (s : t.Sorted) (k : κ) (v : ν) :
    (t.insert k v).size = if t.contains k then t.size else t.size + 1 := by
  have hi := (s.insert_perm k v).length_eq
  cases h : t.get? k
  case none =>
    rw [erase_of_get?_eq_none h] at hi
    simpa [contains, h, size] using hi
  case some v' =>
    have he := (s.erase_perm h).length_eq
    simpa [contains, h, size] using hi.trans he.symm

theorem insert (s : t.Sorted) (k : κ) (v : ν) : (t.insert k v).Sorted := by
  obtain ⟨entries⟩ := t
  induction entries
  case nil => simp [Sorted, Table.insert, insertEntry, keys]
  case cons e rest ih =>
    obtain ⟨hlt, hs⟩ := s.cons
    simp only [Table.insert, insertEntry]
    split
    case isTrue hk => exact List.pairwise_cons.mpr ⟨hk ▸ hlt, hs⟩
    case isFalse hk =>
      split <;> refine List.pairwise_cons.mpr ⟨fun k' hk' => ?_, ?_⟩
      case isTrue.refine_1 hl =>
        cases List.mem_cons.mp hk'
        case inl he => exact he ▸ hl
        case inr hm => exact trans_of (· < ·) hl (hlt k' hm)
      case isTrue.refine_2 => exact s
      case isFalse.refine_1 hl =>
        -- What is behind is the new entry or was there before.
        have hm := ((hs.insert_perm k v).map Prod.fst).mem_iff.mp hk'
        cases List.mem_cons.mp hm
        case inl he =>
          have hgt := (trichotomous_of (· < ·) k e.1).resolve_left hl |>.resolve_left hk
          exact he ▸ hgt
        case inr hm => exact hlt k' (keys_erase_subset hm)
      case isFalse.refine_2 => exact ih hs

variable {γ : Type} {share : ν → Multiset γ}

omit [DecidableLT κ] in
theorem total_erase (s : t.Sorted) (h : t.get? k = some v) :
    t.total share = share v + (t.erase k).total share :=
  total_eq_of_perm (s.erase_perm h)

omit [DecidableLT κ] in
theorem total_get? (s : t.Sorted) (k : κ) :
    t.total share = ((t.get? k).map share).getD 0 + (t.erase k).total share := by
  cases h : t.get? k
  case none => simp [erase_of_get?_eq_none h]
  case some v => exact s.total_erase h

theorem total_insert (s : t.Sorted) (k : κ) (v : ν) :
    (t.insert k v).total share = share v + (t.erase k).total share :=
  total_eq_of_perm (s.insert_perm k v)

theorem total_insert_of_get?_eq_none (s : t.Sorted) (h : t.get? k = none) :
    (t.insert k v).total share = share v + t.total share := by
  rw [s.total_insert, erase_of_get?_eq_none h]

-- What one value has can be told from what the others have.
theorem total_focus (s : t.Sorted) (share : ν → Multiset γ) (h : t.get? k = some v) : ∃ others,
    t.total share = share v + others ∧ ∀ v', (t.insert k v').total share = share v' + others :=
  ⟨_, s.total_erase h, s.total_insert k⟩

end Sorted

end EbpfManager.Table
