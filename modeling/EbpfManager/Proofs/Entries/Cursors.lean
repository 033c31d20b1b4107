import EbpfManager.Map.Iteration
import EbpfManager.Proofs.Kernel.Entries

namespace EbpfManager

namespace Cursor

variable {c : Cursor} {t : Table Bytes Bytes} {key : Bytes} {e : Bytes × Bytes} {es : List (Bytes × Bytes)}

def above (c : Cursor) (key : Bytes) : Bool :=
  match c.last with
  | none      => true
  | some last => last < key

-- The entries of a table that a cursor has still to come to.
def rest (c : Cursor) (t : Table Bytes Bytes) : List (Bytes × Bytes) :=
  if c.done then [] else t.entries.filter (c.above ·.1)

theorem above_trans {key' : Bytes} (h : c.above key) (hk : key < key') : c.above key' := by
  cases hl : c.last
  case none => simp [above, hl]
  case some last =>
    simp only [above, hl, decide_eq_true_eq] at h ⊢
    exact List.lt_trans h hk

theorem mem_rest (hd : c.done = false) : e ∈ c.rest t ↔ e ∈ t.entries ∧ c.above e.1 := by
  simp [rest, hd]

theorem mem_of_rest_eq_cons (h : c.rest t = e :: es) : c.done = false ∧ e ∈ t.entries ∧ c.above e.1 := by
  have hd : c.done = false := by
    cases hd : c.done
    case false => rfl
    case true  => simp [rest, hd] at h
  exact ⟨hd, (mem_rest hd).mp (h ▸ List.mem_cons_self)⟩

theorem rest_pairwise (s : t.Sorted) : (c.rest t).Pairwise (·.1 < ·.1) := by
  have hp : t.entries.Pairwise (·.1 < ·.1) := List.pairwise_map.mp s
  unfold rest
  split
  case isTrue  => exact .nil
  case isFalse => exact hp.filter _

-- No key is passed over.
theorem le_of_rest_eq_cons (s : t.Sorted) (h : c.rest t = e :: es) (hk : key ∈ t.keys) (ha : c.above key) :
    key = e.1 ∨ e.1 < key := by
  obtain ⟨e', he, rfl⟩ := List.mem_map.mp hk
  have hm : e' ∈ e :: es := h ▸ (mem_rest (mem_of_rest_eq_cons h).left).mpr ⟨he, ha⟩
  cases List.mem_cons.mp hm
  case inl he => exact .inl (congrArg Prod.fst he)
  case inr hm => exact .inr ((List.pairwise_cons.mp (h ▸ rest_pairwise s)).left e' hm)

-- As long as the table is the same, one entry after the other is come to.
theorem rest_of_rest_eq_cons (s : t.Sorted) (h : c.rest t = e :: es) : { c with last := some e.1 }.rest t = es := by
  obtain ⟨hd, _, ha⟩ := mem_of_rest_eq_cons h
  have hf : t.entries.filter (fun e' => decide (e.1 < e'.1)) = (c.rest t).filter fun e' => decide (e.1 < e'.1) := by
    rw [rest, hd, if_neg Bool.false_ne_true, List.filter_filter]
    refine List.filter_congr fun e' _ => ?_
    by_cases hl : e.1 < e'.1
    case pos => simp [hl, above_trans ha hl]
    case neg => simp [hl]
  have hp := List.pairwise_cons.mp (h ▸ rest_pairwise s)
  calc { c with last := some e.1 }.rest t
    _ = t.entries.filter (fun e' => decide (e.1 < e'.1)) := by simp [rest, hd, above]
    _ = (e :: es).filter fun e' => decide (e.1 < e'.1)   := by rw [hf, h]
    _ = es.filter fun e' => decide (e.1 < e'.1)          := by rw [List.filter_cons_of_neg (by simp)]
    _ = es := List.filter_eq_self.mpr fun e' he => decide_eq_true (hp.left e' he)

end Cursor

-- A visit to a table: what the table was, and what it was visited for.
structure Visit (α : Type) where
  entries : Table Bytes Bytes
  item    : Option (Except Error α)

variable {α : Type} {pick : Bytes × Bytes → α} {key : α → Bytes} {c : Cursor} {visits : List (Visit α)}

-- What visits have come to.
def Visit.items (visits : List (Visit α)) : List α :=
  visits.filterMap fun v => v.item.bind Except.toOption

-- Visits that come to what a cursor finds in a table of its own for each of them.
inductive Cursor.Visits (pick : Bytes × Bytes → α) : Cursor → List (Visit α) → Prop
  | stop (c : Cursor) : Cursor.Visits pick c []
  | item {c : Cursor} {t : Table Bytes Bytes} {e : Bytes × Bytes} {es : List (Bytes × Bytes)}
      {visits : List (Visit α)} :
      t.Sorted → c.rest t = e :: es → Cursor.Visits pick { c with last := some e.1 } visits →
      Cursor.Visits pick c (⟨t, some (.ok (pick e))⟩ :: visits)
  | done {c : Cursor} {t : Table Bytes Bytes} {visits : List (Visit α)} :
      t.Sorted → c.rest t = [] → Cursor.Visits pick { c with done := true } visits →
      Cursor.Visits pick c (⟨t, none⟩ :: visits)

structure Visit.Orderly (pick : Bytes × Bytes → α) (key : α → Bytes) (visits : List (Visit α)) : Prop where
  -- Nothing fails, and what is come to is an entry at that time.
  there {v : Visit α} {item : Except Error α} : v ∈ visits → v.item = some item →
    ∃ e ∈ v.entries.entries, item = .ok (pick e)
  -- Keys go up.
  rising : ((Visit.items visits).map key).Pairwise (· < ·)
  -- A key that is there until the end is come to once.
  complete {before after : List (Visit α)} {last : Visit α} {k : Bytes} : visits = before ++ last :: after →
    last.item = none → (∀ v ∈ before ++ [last], v.entries.contains k) →
      ((Visit.items visits).map key).count k = 1
  -- The end is the end.
  ended {before after : List (Visit α)} {last : Visit α} : visits = before ++ last :: after →
    last.item = none → ∀ v ∈ after, v.item = none
  -- Where no key is added there are no more visits than entries that come to something.
  bounded {t : Table Bytes Bytes} : (∀ v ∈ visits, ∀ k, v.entries.contains k → t.contains k) →
    (Visit.items visits).length ≤ t.size ∧ ∀ i v, visits[i]? = some v → t.size ≤ i → v.item = none
  -- Where nothing changes one entry is come to after the other.
  unmodified {t : Table Bytes Bytes} : (∀ v ∈ visits, v.entries = t) →
    Visit.items visits = (t.entries.map pick).take visits.length

namespace Cursor.Visits

theorem there (f : Cursor.Visits pick c visits) {v : Visit α} {item : Except Error α} (hv : v ∈ visits)
    (hi : v.item = some item) : ∃ e ∈ v.entries.entries, item = .ok (pick e) := by
  induction f
  case stop => cases hv
  case item e es _ s hr f ih =>
    cases List.mem_cons.mp hv
    case inl he => subst he; cases hi; exact ⟨e, (Cursor.mem_of_rest_eq_cons hr).right.left, rfl⟩
    case inr hv => exact ih hv
  case done ih =>
    cases List.mem_cons.mp hv
    case inl he => subst he; cases hi
    case inr hv => exact ih hv

theorem none_of_done (f : Cursor.Visits pick c visits) (hd : c.done = true) : ∀ v ∈ visits, v.item = none := by
  induction f
  case stop => nofun
  case item hr _ _ => cases hd.symm.trans (Cursor.mem_of_rest_eq_cons hr).left
  case done ih => exact List.forall_mem_cons.mpr ⟨rfl, ih rfl⟩

theorem items_of_done (f : Cursor.Visits pick c visits) (hd : c.done = true) : Visit.items visits = [] :=
  List.filterMap_eq_nil_iff.mpr fun v hv => by rw [f.none_of_done hd v hv]; rfl

-- What has been done stays done.
theorem ended (f : Cursor.Visits pick c visits) {before after : List (Visit α)} {last : Visit α}
    (hv : visits = before ++ last :: after) (hl : last.item = none) : ∀ v ∈ after, v.item = none := by
  induction f generalizing before
  case stop => simp at hv
  case item ih =>
    cases before
    case nil =>
      obtain ⟨rfl, rfl⟩ := List.cons.inj hv
      cases hl
    case cons => exact ih (List.cons.inj hv).right
  case done f ih =>
    cases before
    case nil =>
      obtain ⟨rfl, rfl⟩ := List.cons.inj hv
      exact f.none_of_done rfl
    case cons => exact ih (List.cons.inj hv).right

theorem unmodified (f : Cursor.Visits pick c visits) {t : Table Bytes Bytes} (ht : ∀ v ∈ visits, v.entries = t) :
    Visit.items visits = ((c.rest t).map pick).take visits.length := by
  induction f
  case stop => simp [Visit.items]
  case item c _ e es visits s hr _ ih =>
    obtain ⟨rfl, ht⟩ := List.forall_mem_cons.mp ht
    have ih := ih ht
    rw [Cursor.rest_of_rest_eq_cons s hr] at ih
    rw [hr, List.map_cons, List.length_cons, List.take_succ_cons, ← ih]
    rfl
  case done c t' visits s hr f _ =>
    obtain ⟨rfl, _⟩ := List.forall_mem_cons.mp ht
    have hi : Visit.items (⟨t', none⟩ :: visits) = [] := f.items_of_done rfl
    rw [hr, hi]
    rfl

-- Who has come to something in the end has come to something each time.
theorem lt_length_items (f : Cursor.Visits pick c visits) {i : Nat} {v : Visit α} {item : Except Error α}
    (hv : visits[i]? = some v) (hi : v.item = some item) : i < (Visit.items visits).length := by
  induction f generalizing i
  case stop => cases hv
  case item c t e es visits _ _ _ ih =>
    have hl : (Visit.items (⟨t, some (.ok (pick e))⟩ :: visits)).length = (Visit.items visits).length + 1 := rfl
    rw [hl]
    cases i
    case zero   => exact Nat.succ_pos _
    case succ i => exact Nat.succ_lt_succ (ih hv)
  case done f _ =>
    cases i
    case zero => cases hv; cases hi
    case succ i =>
      have hm := List.mem_of_getElem? (List.getElem?_cons_succ ▸ hv)
      cases hi.symm.trans (f.none_of_done rfl v hm)

section

variable (hk : ∀ e, key (pick e) = e.1)

include hk

theorem rising (f : Cursor.Visits pick c visits) :
    (∀ k ∈ (Visit.items visits).map key, c.above k) ∧ ((Visit.items visits).map key).Pairwise (· < ·) := by
  induction f
  case stop => exact ⟨nofun, .nil⟩
  case item c t e es visits _ hr _ ih =>
    have ha : c.above e.1 := (Cursor.mem_of_rest_eq_cons hr).right.right
    have hi : (Visit.items (⟨t, some (.ok (pick e))⟩ :: visits)).map key = e.1 :: (Visit.items visits).map key := by
      rw [← hk e]
      rfl
    have hl : ∀ k ∈ (Visit.items visits).map key, e.1 < k := fun k hm => of_decide_eq_true (ih.left k hm)
    rw [hi]
    exact ⟨List.forall_mem_cons.mpr ⟨ha, fun k hm => Cursor.above_trans ha (hl k hm)⟩,
      List.pairwise_cons.mpr ⟨hl, ih.right⟩⟩
  case done c t visits _ _ f _ =>
    have hi : Visit.items (⟨t, none⟩ :: visits) = [] := f.items_of_done rfl
    rw [hi]
    exact ⟨nofun, .nil⟩

theorem mem_items (f : Cursor.Visits pick c visits) {before after : List (Visit α)} {last : Visit α} {k : Bytes}
    (hd : c.done = false) (ha : c.above k) (hv : visits = before ++ last :: after) (hl : last.item = none)
    (ht : ∀ v ∈ before ++ [last], v.entries.contains k) : k ∈ (Visit.items visits).map key := by
  induction f generalizing before
  case stop => simp at hv
  case item c t e es visits s hr _ ih =>
    cases before
    case nil =>
      obtain ⟨rfl, rfl⟩ := List.cons.inj hv
      cases hl
    case cons v before =>
      obtain ⟨rfl, rfl⟩ := List.cons.inj hv
      obtain ⟨hc, ht⟩ := List.forall_mem_cons.mp ht
      refine List.mem_cons.mpr ?_
      obtain he | hlt := Cursor.le_of_rest_eq_cons s hr (Table.contains_iff.mp hc) ha
      case inl => exact .inl (he.trans (hk e).symm)
      case inr => exact .inr (ih hd (decide_eq_true hlt) rfl ht)
  case done c t visits s hr _ _ =>
    -- The key would have been found.
    have hc : t.contains k := by
      cases before
      case nil =>
        obtain ⟨rfl, rfl⟩ := List.cons.inj hv
        exact ht _ List.mem_cons_self
      case cons v before =>
        obtain ⟨rfl, rfl⟩ := List.cons.inj hv
        exact ht _ List.mem_cons_self
    obtain ⟨e, he, rfl⟩ := List.mem_map.mp (Table.contains_iff.mp hc)
    have hm := (Cursor.mem_rest hd).mpr ⟨he, ha⟩
    simp [hr] at hm

theorem mem_keys_of_mem_items (f : Cursor.Visits pick c visits) {k : Bytes} (hm : k ∈ (Visit.items visits).map key) :
    ∃ v ∈ visits, v.entries.contains k := by
  obtain ⟨a, ha, rfl⟩ := List.mem_map.mp hm
  obtain ⟨v, hv, hi⟩ := List.mem_filterMap.mp ha
  obtain ⟨item, hi, ho⟩ := Option.bind_eq_some_iff.mp hi
  obtain ⟨e, he, rfl⟩ := f.there hv hi
  cases ho
  exact ⟨v, hv, Table.contains_iff.mpr (hk e ▸ List.mem_map_of_mem he)⟩

theorem nodup (f : Cursor.Visits pick c visits) : ((Visit.items visits).map key).Nodup :=
  have ne {k k' : Bytes} (h : k < k') : k ≠ k' := fun he => List.lt_irrefl k' (he ▸ h)
  List.Pairwise.imp ne (f.rising hk).right

theorem orderly (f : Cursor.Visits pick {} visits) : Visit.Orderly pick key visits where
  there  := f.there
  rising := (f.rising hk).right
  complete hv hl ht := List.count_eq_one_of_mem (f.nodup hk) (f.mem_items hk rfl rfl hv hl ht)
  ended  := f.ended
  bounded {t} ht := by
    have hs : (Visit.items visits).map key ⊆ t.keys := fun k hm => by
      obtain ⟨v, hv, hc⟩ := f.mem_keys_of_mem_items hk hm
      exact Table.contains_iff.mp (ht v hv k hc)
    have hl : (Visit.items visits).length ≤ t.size := by
      simpa [Table.keys, Table.size] using ((f.nodup hk).subperm hs).length_le
    refine ⟨hl, fun i v hv hi => ?_⟩
    cases he : v.item
    case none      => rfl
    case some item => exact absurd (f.lt_length_items hv he) (by omega)
  unmodified {t} ht := by
    have hr : ({} : Cursor).rest t = t.entries := by simp [Cursor.rest, Cursor.above]
    rw [← hr]
    exact f.unmodified ht

end

end Cursor.Visits

end EbpfManager
