import EbpfManager.Proofs.Results
import EbpfManager.Proofs.SortedTable

namespace EbpfManager

variable {δ κ ν : Type} {named : δ → κ} {r : δ → ν → Prop} {ds : List δ} {d : δ} {k : κ} {v : ν}

section Last

variable [DecidableEq κ]

-- The one that comes last of those that have a name.
def lastNamed? (named : δ → κ) (ds : List δ) (k : κ) : Option δ :=
  ds.reverse.find? (named · = k)

theorem lastNamed?_concat :
    lastNamed? named (ds ++ [d]) k = if named d = k then some d else lastNamed? named ds k := by
  simp only [lastNamed?, List.reverse_append, List.reverse_singleton, List.singleton_append, List.find?_cons]
  by_cases hk : named d = k <;> simp [hk]

theorem lastNamed?_eq_some (h : lastNamed? named ds k = some d) : d ∈ ds ∧ named d = k :=
  ⟨List.mem_reverse.mp (List.mem_of_find?_eq_some h), by simpa using List.find?_some h⟩

theorem lastNamed?_eq_none_iff : lastNamed? named ds k = none ↔ k ∉ ds.map named := by
  simp [lastNamed?]

theorem exists_lastNamed? (hk : k ∈ ds.map named) : ∃ d, lastNamed? named ds k = some d :=
  Option.ne_none_iff_exists'.mp fun hn => lastNamed?_eq_none_iff.mp hn hk

theorem lastNamed?_of_nodup (hn : (ds.map named).Nodup) (hd : d ∈ ds) :
    lastNamed? named ds (named d) = some d := by
  obtain ⟨d', hl⟩ := exists_lastNamed? (List.mem_map_of_mem (f := named) hd)
  obtain ⟨hd', he⟩ := lastNamed?_eq_some hl
  rw [hl, List.inj_on_of_nodup_map hn hd' hd he]

end Last

namespace Table

variable {t : Table κ ν}

-- That each thing has an entry of its own, under its name, and that there are no other entries.
def HasEach (named : δ → κ) (r : δ → ν → Prop) (ds : List δ) (t : Table κ ν) : Prop :=
  ∃ entries, entries.Perm t.entries ∧ List.Forall₂ (fun d e => e.1 = named d ∧ r d e.2) ds entries

theorem HasEach.size (h : t.HasEach named r ds) : t.size = ds.length := by
  obtain ⟨entries, hp, hf⟩ := h
  exact hp.length_eq.symm.trans hf.length_eq.symm

theorem map_fst_of_forall₂ {entries : List (κ × ν)}
    (hf : List.Forall₂ (fun d e => e.1 = named d ∧ r d e.2) ds entries) : entries.map Prod.fst = ds.map named := by
  induction hf
  case nil             => rfl
  case cons h _ ih => simp [h.left, ih]

variable [DecidableEq κ] [LT κ]

-- That what is in a table under a name was made of the last thing of this name.
structure Collects (named : δ → κ) (r : δ → ν → Prop) (ds : List δ) (t : Table κ ν) : Prop where
  sorted : t.Sorted
  last k : Option.Rel r (lastNamed? named ds k) (t.get? k)

theorem collects_empty : Collects named r [] (empty : Table κ ν) where
  sorted := sorted_empty
  last _ := .none

namespace Collects

theorem get?_of_last (c : t.Collects named r ds) (h : lastNamed? named ds k = some d) :
    ∃ v, t.get? k = some v ∧ r d v := by
  have hr := c.last k
  rw [h] at hr
  cases hg : t.get? k <;> rw [hg] at hr <;> cases hr
  exact ⟨_, rfl, ‹_›⟩

theorem last_of_get? (c : t.Collects named r ds) (h : t.get? k = some v) :
    ∃ d, lastNamed? named ds k = some d ∧ r d v := by
  have hr := c.last k
  rw [h] at hr
  cases hl : lastNamed? named ds k <;> rw [hl] at hr <;> cases hr
  exact ⟨_, rfl, ‹_›⟩

theorem last_of_get?_eq_none (c : t.Collects named r ds) (h : t.get? k = none) : lastNamed? named ds k = none := by
  have hr := c.last k
  rw [h] at hr
  cases hl : lastNamed? named ds k
  case none   => rfl
  case some _ => rw [hl] at hr; cases hr

theorem imp {r' : δ → ν → Prop} (c : t.Collects named r ds)
    (hr : ∀ k d v, t.get? k = some v → r d v → r' d v) : t.Collects named r' ds where
  sorted := c.sorted
  last k := by
    cases hg : t.get? k
    case none   => exact c.last_of_get?_eq_none hg ▸ .none
    case some v =>
      obtain ⟨d, hl, h⟩ := c.last_of_get? hg
      exact hl ▸ .some (hr k d v hg h)

theorem get? (c : t.Collects named r ds) (hn : (ds.map named).Nodup) (hd : d ∈ ds) :
    ∃ v, t.get? (named d) = some v ∧ r d v :=
  c.get?_of_last (lastNamed?_of_nodup hn hd)

variable [IsStrictTotalOrder κ (· < ·)]

theorem of_mem_values (c : t.Collects named r ds) (hv : v ∈ t.values) : ∃ d ∈ ds, r d v := by
  obtain ⟨⟨k, v⟩, he, rfl⟩ := List.mem_map.mp hv
  obtain ⟨d, hl, hr⟩ := c.last_of_get? (c.sorted.get?_of_mem he)
  exact ⟨d, (lastNamed?_eq_some hl).left, hr⟩

theorem concat [DecidableLT κ] (c : t.Collects named r ds) (hr : r d v) :
    (t.insert (named d) v).Collects named r (ds ++ [d]) where
  sorted := c.sorted.insert ..
  last k := by
    rw [lastNamed?_concat, get?_insert]
    split
    case isTrue  => exact .some hr
    case isFalse => exact c.last k

omit [IsStrictTotalOrder κ (· < ·)] in
theorem keys_subset (c : t.Collects named r ds) : t.keys ⊆ ds.map named := by
  intro k hk
  obtain ⟨v, hg⟩ := Option.ne_none_iff_exists'.mp fun hn => get?_eq_none_iff.mp hn hk
  obtain ⟨d, hl, _⟩ := c.last_of_get? hg
  obtain ⟨hd, he⟩ := lastNamed?_eq_some hl
  exact he ▸ List.mem_map_of_mem hd

-- As the keys are all different, there are as many of them as names only if the names are different, too.
theorem keys_subperm (c : t.Collects named r ds) : t.keys.Subperm (ds.map named) :=
  List.subperm_of_subset c.sorted.nodup_keys c.keys_subset

theorem nodup_of_size_eq (c : t.Collects named r ds) (h : t.size = ds.length) : (ds.map named).Nodup := by
  have hl : (ds.map named).length ≤ t.keys.length := by simpa [keys, size] using h.ge
  exact (c.keys_subperm.perm_of_length_le hl).nodup_iff.mp c.sorted.nodup_keys

-- The entries under the names of the things are different, and there can be no others.
theorem hasEach_of_nodup (c : t.Collects named r ds) (hn : (ds.map named).Nodup) : t.HasEach named r ds := by
  have each : ∀ d ∈ ds, ∃ e : κ × ν, (e.1 = named d ∧ r d e.2) ∧ e ∈ t.entries := by
    intro d hd
    obtain ⟨v, hg, hr⟩ := c.get? hn hd
    exact ⟨(named d, v), ⟨rfl, hr⟩, mem_of_get? hg⟩
  obtain ⟨entries, he⟩ := exists_forall₂ each
  have hf := he.imp fun _ _ h => h.left
  have hn : entries.Nodup := .of_map Prod.fst (map_fst_of_forall₂ hf ▸ hn)
  have hs : entries ⊆ t.entries := fun e h => (exists_of_mem_right he h).elim fun _ h => h.right.right
  have hl : t.entries.length ≤ entries.length := by
    simpa [keys, hf.length_eq] using c.keys_subperm.length_le
  exact ⟨entries, (List.subperm_of_subset hn hs).perm_of_length_le hl, hf⟩

theorem size_eq_iff (c : t.Collects named r ds) : t.size = ds.length ↔ (ds.map named).Nodup :=
  ⟨c.nodup_of_size_eq, fun hn => (c.hasEach_of_nodup hn).size⟩

theorem hasEach_iff (c : t.Collects named r ds) : t.HasEach named r ds ↔ (ds.map named).Nodup :=
  ⟨fun h => c.nodup_of_size_eq h.size, c.hasEach_of_nodup⟩

end Collects

end Table

end EbpfManager
