import Mathlib.Data.List.Forall2

namespace EbpfManager

variable {ε α β γ : Type} {a : α} {b : β}

@[simp] theorem bind_eq_ok {x : Except ε α} {f : α → Except ε β} :
    x >>= f = .ok b ↔ ∃ a, x = .ok a ∧ f a = .ok b := by
  cases x <;> simp [bind, Except.bind]

@[simp] theorem map_eq_ok {x : Except ε α} {f : α → β} :
    f <$> x = .ok b ↔ ∃ a, x = .ok a ∧ f a = b := by
  cases x <;> simp [Functor.map, Except.map]

@[simp] theorem mapError_eq_ok {ε' : Type} {x : Except ε α} {f : ε → ε'} :
    x.mapError f = .ok a ↔ x = .ok a := by
  cases x <;> simp [Except.mapError]

@[simp] theorem pure_eq_ok {a a' : α} : (pure a : Except ε α) = .ok a' ↔ a = a' := by
  simp [pure, Except.pure]

theorem mapM_eq_ok {f : α → Except ε β} {as : List α} {bs : List β} :
    as.mapM f = .ok bs ↔ List.Forall₂ (fun a b => f a = .ok b) as bs := by
  induction as generalizing bs
  case nil => cases bs <;> simp
  case cons a as ih =>
    simp only [List.mapM_cons, bind_eq_ok, pure_eq_ok, List.forall₂_cons_left_iff]
    constructor
    case mp =>
      rintro ⟨b, hb, bs, hbs, he⟩
      exact ⟨b, bs, hb, ih.mp hbs, he.symm⟩
    case mpr =>
      rintro ⟨b, bs, hb, hbs, he⟩
      exact ⟨b, hb, bs, ih.mpr hbs, he.symm⟩

theorem mapM_map_eq_ok {as : List γ} {f : α → Except ε β} {g : γ → α} {g' : γ → β}
    (h : ∀ c ∈ as, f (g c) = .ok (g' c)) : (as.map g).mapM f = .ok (as.map g') := by
  rw [mapM_eq_ok, List.forall₂_map_left_iff, List.forall₂_map_right_iff, List.forall₂_same]
  exact h

-- What each step of a fold keeps, of the values done and the result so far, is so in the end.
theorem of_foldlM_eq_ok {motive : List α → β → Prop} {f : β → α → Except ε β} {as : List α} {b b' : β}
    (step : ∀ {done a b b'}, motive done b → f b a = .ok b' → motive (done ++ [a]) b')
    (start : motive [] b) (h : as.foldlM f b = .ok b') : motive as b' := by
  have key (done as : List α) (b : β) (hb : motive done b) (h : as.foldlM f b = .ok b') :
      motive (done ++ as) b' := by
    induction as generalizing done b
    case nil =>
      cases h
      simpa using hb
    case cons a as ih =>
      rw [List.foldlM_cons, bind_eq_ok] at h
      obtain ⟨b₁, hf, h⟩ := h
      have hs := ih (done ++ [a]) b₁ (step hb hf) h
      simpa using hs
  exact key [] as b start h

-- A fold that fails has failed at one of its steps.
theorem exists_of_foldlM_eq_error {f : β → α → Except ε β} {as : List α} {b : β} {e : ε}
    (h : as.foldlM f b = .error e) : ∃ a ∈ as, ∃ b, f b a = .error e := by
  induction as generalizing b
  case nil => cases h
  case cons a as ih =>
    rw [List.foldlM_cons] at h
    cases hf : f b a
    case error e' =>
      rw [hf] at h
      cases h
      exact ⟨a, List.mem_cons_self, b, hf⟩
    case ok b' =>
      rw [hf] at h
      obtain ⟨a, ha, h⟩ := ih h
      exact ⟨a, List.mem_cons_of_mem _ ha, h⟩

theorem ok_bind (a : α) (f : α → Except ε β) : (.ok a : Except ε α) >>= f = f a := rfl

-- Only what the first step comes to matters to the second.
theorem bind_congr_ok {x : Except ε α} {f f' : α → Except ε β} (h : ∀ a, x = .ok a → f a = f' a) :
    x >>= f = x >>= f' := by
  cases x
  case error => rfl
  case ok a  => exact h a rfl

theorem mapM_congr_mem {f f' : α → Except ε β} {as : List α} (h : ∀ a ∈ as, f a = f' a) :
    as.mapM f = as.mapM f' := by
  induction as
  case nil => rfl
  case cons a as ih =>
    rw [List.mapM_cons, List.mapM_cons, h a List.mem_cons_self, ih fun a ha => h a (List.mem_cons_of_mem _ ha)]

-- What fails first fails all.
theorem mapM_eq_error {f : α → Except ε β} {as : List α} {e : ε} :
    as.mapM f = .error e ↔ ∃ before a after, as = before ++ a :: after ∧
      (∀ b ∈ before, ∃ c, f b = .ok c) ∧ f a = .error e := by
  induction as
  case nil => simp [pure, Except.pure]
  case cons a as ih =>
    rw [List.mapM_cons]
    constructor
    case mp =>
      intro h
      cases hf : f a
      case error e' =>
        rw [hf] at h
        cases h
        exact ⟨[], a, as, rfl, by simp, hf⟩
      case ok c =>
        rw [hf, ok_bind] at h
        cases hs : as.mapM f
        case ok bs => rw [hs] at h; cases h
        case error e' =>
          rw [hs] at h
          cases h
          obtain ⟨before, a', after, rfl, hb, he⟩ := ih.mp hs
          exact ⟨a :: before, a', after, rfl, List.forall_mem_cons.mpr ⟨⟨c, hf⟩, hb⟩, he⟩
    case mpr =>
      rintro ⟨before, a', after, hs, hb, he⟩
      cases before
      case nil =>
        obtain ⟨rfl, rfl⟩ := List.cons.inj hs
        rw [he]
        rfl
      case cons b before =>
        obtain ⟨rfl, rfl⟩ := List.cons.inj hs
        obtain ⟨⟨c, hc⟩, hb⟩ := List.forall_mem_cons.mp hb
        rw [hc, ok_bind, ih.mpr ⟨before, a', after, rfl, hb, he⟩]
        rfl

theorem mapM_eq_some {f : α → Option β} {as : List α} {bs : List β} :
    as.mapM f = some bs ↔ List.Forall₂ (fun a b => f a = some b) as bs := by
  induction as generalizing bs
  case nil => cases bs <;> simp
  case cons a as ih =>
    simp only [List.mapM_cons, Option.bind_eq_bind, Option.bind_eq_some_iff, Option.pure_def,
      Option.some_inj, List.forall₂_cons_left_iff]
    constructor
    case mp =>
      rintro ⟨b, hb, bs, hbs, he⟩
      exact ⟨b, bs, hb, ih.mp hbs, he.symm⟩
    case mpr =>
      rintro ⟨b, bs, hb, hbs, he⟩
      exact ⟨b, hb, bs, ih.mpr hbs, he.symm⟩

theorem mapM_map_eq_some {as : List γ} {f : α → Option β} {g : γ → α} {g' : γ → β}
    (h : ∀ c ∈ as, f (g c) = some (g' c)) : (as.map g).mapM f = some (as.map g') := by
  rw [mapM_eq_some, List.forall₂_map_left_iff, List.forall₂_map_right_iff, List.forall₂_same]
  exact h

-- Positions are told apart.
theorem pairwise_zipIdx (as : List α) (k : Nat) : (as.zipIdx k).Pairwise (·.2 ≠ ·.2) := by
  have hn : ((as.zipIdx k).map Prod.snd).Nodup := by
    rw [List.zipIdx_map_snd]
    exact List.nodup_range'
  exact List.pairwise_map.mp hn

theorem find?_zipIdx_append {p : α → Bool} {front rest : List α} (hf : ∀ a ∈ front, p a = false) (ha : p a) :
    (front ++ a :: rest).zipIdx.find? (p ·.1) = some (a, front.length) := by
  have hn : front.zipIdx.find? (p ·.1) = none :=
    List.find?_eq_none.mpr fun a ha => by simp [hf a.1 (List.fst_mem_of_mem_zipIdx ha)]
  rw [List.zipIdx_append, List.find?_append, hn, List.zipIdx_cons, Nat.zero_add]
  simp [ha]

theorem mem_drop_zipIdx {as : List α} {i : Nat} : (a, i) ∈ as.zipIdx.drop 1 ↔ 0 < i ∧ as[i]? = some a := by
  rw [List.mem_iff_getElem?]
  constructor
  case mp =>
    rintro ⟨j, hj⟩
    rw [List.getElem?_drop, List.getElem?_zipIdx] at hj
    obtain ⟨_, hg, he⟩ := Option.map_eq_some_iff.mp hj
    cases he
    exact ⟨by omega, by simpa using hg⟩
  case mpr =>
    rintro ⟨h0, ha⟩
    refine ⟨i - 1, ?_⟩
    rw [List.getElem?_drop, List.getElem?_zipIdx, Nat.add_sub_cancel' h0, ha, Option.map_some, Nat.zero_add]

theorem ascending_zipIdx (as : List α) (k : Nat) : (as.zipIdx k).Pairwise (·.2 < ·.2) := by
  have hn : ((as.zipIdx k).map Prod.snd).Pairwise (· < ·) := by
    rw [List.zipIdx_map_snd]
    exact List.pairwise_lt_range'
  exact List.pairwise_map.mp hn

-- There is one way only to put things in order.
theorem eq_of_ascending {key : α → Nat} {as bs : List α} (ha : as.Pairwise (key · < key ·))
    (hb : bs.Pairwise (key · < key ·)) (hm : ∀ a, a ∈ as ↔ a ∈ bs) : as = bs := by
  have nodup {as : List α} (h : as.Pairwise (key · < key ·)) : as.Nodup :=
    h.imp fun {a b} hlt (he : a = b) => Nat.ne_of_lt hlt (congrArg key he)
  have hp : as.Perm bs := (List.perm_ext_iff_of_nodup (nodup ha) (nodup hb)).mpr hm
  exact hp.eq_of_pairwise (fun _ _ _ _ hlt hgt => absurd hgt (Nat.lt_asymm hlt)) ha hb

section

variable {r : α → β → Prop} {as : List α} {bs : List β}

theorem exists_of_mem_right (h : List.Forall₂ r as bs) (hb : b ∈ bs) : ∃ a ∈ as, r a b := by
  induction h
  case nil => cases hb
  case cons a b' as bs hr _ ih =>
    cases List.mem_cons.mp hb
    case inl he => exact ⟨a, List.mem_cons_self, he ▸ hr⟩
    case inr hb =>
      obtain ⟨a, ha, hr⟩ := ih hb
      exact ⟨a, List.mem_cons_of_mem _ ha, hr⟩

theorem exists_of_mem_left (h : List.Forall₂ r as bs) (ha : a ∈ as) : ∃ b ∈ bs, r a b :=
  exists_of_mem_right h.flip ha

-- What is left of either list where they are sifted alike.
theorem forall₂_filterMap {r' : α → γ → Prop} {p : α → Bool} {f : β → Option γ}
    (h : List.Forall₂ r as bs)
    (hs : ∀ a b, r a b → (p a ∧ ∃ c, f b = some c ∧ r' a c) ∨ (p a = false ∧ f b = none)) :
    List.Forall₂ r' (as.filter p) (bs.filterMap f) := by
  induction h
  case nil => exact .nil
  case cons a b as bs hr _ ih =>
    cases hs a b hr
    case inl hc =>
      obtain ⟨hp, c, hf, hr'⟩ := hc
      rw [List.filter_cons_of_pos hp, List.filterMap_cons_some hf]
      exact ih.cons hr'
    case inr hn =>
      obtain ⟨hp, hf⟩ := hn
      rw [List.filter_cons_of_neg (Bool.eq_false_iff.mp hp), List.filterMap_cons_none hf]
      exact ih

theorem exists_getElem?_of_forall₂ (h : List.Forall₂ r as bs) {i : Nat} (ha : as[i]? = some a) :
    ∃ b, bs[i]? = some b ∧ r a b := by
  obtain ⟨hl, hget⟩ := List.forall₂_iff_get.mp h
  obtain ⟨hi, ha⟩ := List.getElem?_eq_some_iff.mp ha
  exact ⟨_, List.getElem?_eq_getElem (hl ▸ hi), ha ▸ hget i hi (hl ▸ hi)⟩

theorem forall₂_of_zipIdx {f : γ → α} {cs : List γ} {r : α × Nat → β → Prop} {r' : γ → β → Prop}
    (h : List.Forall₂ r (cs.map f).zipIdx bs)
    (hr : ∀ i c b, cs[i]? = some c → r (f c, i) b → r' c b) : List.Forall₂ r' cs bs := by
  obtain ⟨hl, hget⟩ := List.forall₂_iff_get.mp h
  have hl : cs.length = bs.length := by simpa using hl
  refine List.forall₂_iff_get.mpr ⟨hl, fun i hi hi' => hr i _ _ (List.getElem?_eq_getElem hi) ?_⟩
  simpa using hget i (by simpa using hi) hi'

theorem exists_forall₂ (h : ∀ a ∈ as, ∃ b, r a b) : ∃ bs, List.Forall₂ r as bs := by
  induction as
  case nil => exact ⟨[], .nil⟩
  case cons a as ih =>
    obtain ⟨b, hb⟩ := h a List.mem_cons_self
    obtain ⟨bs, hbs⟩ := ih fun a ha => h a (List.mem_cons_of_mem _ ha)
    exact ⟨b :: bs, hbs.cons hb⟩

-- What holds of any two of a list, in either order, holds at any two positions.
theorem pairwise_getElem? {p : α → α → Prop} (hs : ∀ {a a'}, p a a' → p a' a) (hp : as.Pairwise p)
    {i j : Nat} {a a' : α} (hi : as[i]? = some a) (hj : as[j]? = some a') (hne : i ≠ j) : p a a' := by
  obtain ⟨hi, ha⟩ := List.getElem?_eq_some_iff.mp hi
  obtain ⟨hj, ha'⟩ := List.getElem?_eq_some_iff.mp hj
  have hget := List.pairwise_iff_getElem.mp hp
  cases Nat.lt_or_gt_of_ne hne
  case inl hlt => exact ha ▸ ha' ▸ hget i j hi hj hlt
  case inr hlt => exact hs (ha ▸ ha' ▸ hget j i hj hi hlt)

-- Where a key tells all values apart, a value is the only one with its key.
theorem filter_eq_singleton [DecidableEq β] {f : α → β} (hp : as.Pairwise (f · ≠ f ·)) (ha : a ∈ as) :
    as.filter (f · = f a) = [a] := by
  induction as
  case nil => cases ha
  case cons a' as ih =>
    obtain ⟨hne, hp⟩ := List.pairwise_cons.mp hp
    cases List.mem_cons.mp ha
    case inl he =>
      subst he
      have hn : as.filter (f · = f a) = [] :=
        List.filter_eq_nil_iff.mpr fun a' ha' => by simpa using (hne a' ha').symm
      rw [List.filter_cons_of_pos (by simp), hn]
    case inr ha => rw [List.filter_cons_of_neg (by simpa using hne a ha), ih hp ha]

theorem pairwise_of_forall₂ {p : α → α → Prop} {q : β → β → Prop} (h : List.Forall₂ r as bs)
    (hp : as.Pairwise p) (hq : ∀ a b a' b', r a b → r a' b' → p a a' → q b b') : bs.Pairwise q := by
  induction h
  case nil => exact .nil
  case cons a b as bs hr hf ih =>
    obtain ⟨ha, hp⟩ := List.pairwise_cons.mp hp
    refine List.pairwise_cons.mpr ⟨fun b' hb' => ?_, ih hp⟩
    obtain ⟨a', ha', hr'⟩ := exists_of_mem_right hf hb'
    exact hq a b a' b' hr hr' (ha a' ha')

end

section

variable [DecidableEq α]

theorem nodup_eraseDups (as : List α) : as.eraseDups.Nodup := by
  induction hn : as.length using Nat.strongRecOn generalizing as
  case ind n ih =>
    cases as
    case nil => exact .nil
    case cons a as =>
      rw [List.eraseDups_cons, List.nodup_cons]
      refine ⟨by simp, ih _ ?_ _ rfl⟩
      have hl := List.length_filter_le (fun b => !b == a) as
      rw [← hn, List.length_cons]
      omega

theorem eraseDups_concat (as : List α) (a : α) :
    (as ++ [a]).eraseDups = if a ∈ as.eraseDups then as.eraseDups else as.eraseDups ++ [a] := by
  have hs : [a].eraseDups = [a] := by rw [List.eraseDups_cons]; rfl
  by_cases ha : a ∈ as <;> simp [List.eraseDups_append, List.removeAll, ha, hs]

end

end EbpfManager
