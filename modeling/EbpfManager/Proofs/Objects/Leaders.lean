import EbpfManager.Proofs.Objects.Programs
import Mathlib.Data.List.Dedup
import Mathlib.Data.List.Nodup

namespace EbpfManager.Object

open Elf

-- The leaders of functions: the first one at each address, by address.
structure Leaders (functions leaders : List Symbol) : Prop where
  ascending : leaders.Pairwise (·.address < ·.address)
  first f   : f ∈ leaders ↔ functions.find? (·.address = f.address) = some f

variable {symbols symbols' functions fs gs : List Symbol} {number length : Nat} {kind : Option SymbolKind}
  {ms : List Mark}

section Firsts

theorem find?_of_mem_firstsAfter {last : Nat} {m : Mark}
    (hs : ms.Pairwise (·.address ≤ ·.address)) (hl : ∀ m ∈ ms, last ≤ m.address)
    (hm : m ∈ firstsAfter last ms) : ms.find? (·.address = m.address) = some m := by
  induction ms generalizing last
  case nil => cases hm
  case cons m' rest ih =>
    have hlt := (firstsAfter_pairwise hl hs).left m hm
    obtain ⟨hm', hs⟩ := List.pairwise_cons.mp hs
    rw [firstsAfter] at hm
    split at hm
    case isTrue he =>
      have hne : m'.address ≠ m.address := he ▸ Nat.ne_of_lt hlt
      rw [List.find?_cons_of_neg (by simpa using hne)]
      exact ih hs (he ▸ hm') hm
    case isFalse =>
      cases List.mem_cons.mp hm
      case inl he => simp [he]
      case inr hm =>
        have hne : m'.address ≠ m.address :=
          Nat.ne_of_lt <| (firstsAfter_pairwise hm' hs).left m hm
        rw [List.find?_cons_of_neg (by simpa using hne)]
        exact ih hs hm' hm

theorem find?_of_mem_firsts {m : Mark} (hs : ms.Pairwise (·.address ≤ ·.address))
    (hm : m ∈ firsts ms) : ms.find? (·.address = m.address) = some m := by
  cases ms
  case nil => cases hm
  case cons m' rest =>
    obtain ⟨hm', hs⟩ := List.pairwise_cons.mp hs
    cases List.mem_cons.mp hm
    case inl he => simp [he]
    case inr hm =>
      have hne : m'.address ≠ m.address :=
        Nat.ne_of_lt <| (firstsAfter_pairwise hm' hs).left m hm
      rw [List.find?_cons_of_neg (by simpa using hne)]
      exact find?_of_mem_firstsAfter hs hm' hm

theorem exists_mem_firstsAfter {last : Nat} {m : Mark} (hm : m ∈ ms) (hne : m.address ≠ last) :
    ∃ m' ∈ firstsAfter last ms, m'.address = m.address := by
  induction ms generalizing last
  case nil => cases hm
  case cons m' rest ih =>
    rw [firstsAfter]
    split
    case isTrue he =>
      cases List.mem_cons.mp hm
      case inl hm => exact absurd (hm ▸ he) hne
      case inr hm => exact ih hm hne
    case isFalse =>
      by_cases he : m.address = m'.address
      case pos => exact ⟨m', List.mem_cons_self, he.symm⟩
      case neg =>
        have hm : m ∈ rest := (List.mem_cons.mp hm).resolve_left fun h => he (h ▸ rfl)
        obtain ⟨m'', hm, ha⟩ := ih hm he
        exact ⟨m'', List.mem_cons_of_mem _ hm, ha⟩

theorem exists_mem_firsts {m : Mark} (hm : m ∈ ms) : ∃ m' ∈ firsts ms, m'.address = m.address := by
  cases ms
  case nil => cases hm
  case cons m' rest =>
    by_cases he : m.address = m'.address
    case pos => exact ⟨m', List.mem_cons_self, he.symm⟩
    case neg =>
      have hm : m ∈ rest := (List.mem_cons.mp hm).resolve_left fun h => he (h ▸ rfl)
      obtain ⟨m'', hm, ha⟩ := exists_mem_firstsAfter hm he
      exact ⟨m'', List.mem_cons_of_mem _ hm, ha⟩

-- Sorting keeps the order of the marks at one address.
theorem find?_mergeSort_address (ms : List Mark) (address : Nat) :
    (ms.mergeSort (·.address ≤ ·.address)).find? (·.address = address) =
      ms.find? (·.address = address) := by
  let p : Mark → Bool := (·.address = address)
  have hs : (ms.filter p).Sublist (ms.mergeSort (·.address ≤ ·.address)) := by
    refine List.sublist_mergeSort ?_ ?_ ?_ List.filter_sublist
    case refine_1 => intro a b c hab hbc; simp at *; omega
    case refine_2 => intro a b; simp; omega
    case refine_3 =>
      refine List.pairwise_of_forall_mem_list fun m hm m' hm' => ?_
      have ha : m.address = address := by simpa [p] using (List.mem_filter.mp hm).right
      have ha' : m'.address = address := by simpa [p] using (List.mem_filter.mp hm').right
      simp [ha, ha']
  have hf := hs.filter p
  simp only [List.filter_filter, Bool.and_self] at hf
  have hl := (List.mergeSort_perm ms (·.address ≤ ·.address)).filter p
  rw [← List.head?_filter, ← List.head?_filter, hf.eq_of_length hl.length_eq.symm]

end Firsts

-- There is a mark for each leader.
theorem exists_leaders (symbols : List Symbol) (number : Nat) (kind : Option SymbolKind) : ∃ fs,
    Leaders (beginnings symbols number kind) fs ∧ marks symbols number kind = fs.map markOf := by
  let ms := (beginnings symbols number kind).map markOf
  have hmarks : marks symbols number kind = firsts (ms.mergeSort (·.address ≤ ·.address)) := by
    rw [marks, filterMap_mark?]
  have hfind (address : Nat) : (ms.mergeSort (·.address ≤ ·.address)).find? (·.address = address) =
      ((beginnings symbols number kind).find? (·.address = address)).map markOf := by
    rw [find?_mergeSort_address, List.find?_map]
    rfl
  -- What leads at the address of a mark made the mark.
  have hlead : ∀ m ∈ marks symbols number kind, ∃ f,
      (beginnings symbols number kind).find? (·.address = m.address) = some f ∧ markOf f = m := by
    intro m hm
    rw [hmarks] at hm
    have hf := find?_of_mem_firsts (pairwise_mergeSort_key Mark.address ms) hm
    rw [hfind] at hf
    exact Option.map_eq_some_iff.mp hf
  obtain ⟨fs, hfs⟩ := exists_forall₂ hlead
  have hmap : marks symbols number kind = fs.map markOf := by
    rw [← List.forall₂_eq_eq_eq, List.forall₂_map_right_iff]
    exact hfs.imp fun _ _ h => h.right.symm
  refine ⟨fs, ⟨?_, fun f => ⟨fun hf => ?_, fun hf => ?_⟩⟩, hmap⟩
  case refine_1 =>
    have hp : (marks symbols number kind).Pairwise (·.address < ·.address) := marks_pairwise
    rwa [hmap, List.pairwise_map] at hp
  case refine_2 =>
    obtain ⟨m, _, hfind, hmark⟩ := exists_of_mem_right hfs hf
    rw [← hmark] at hfind
    exact hfind
  case refine_3 =>
    have hmem : markOf f ∈ ms.mergeSort (·.address ≤ ·.address) :=
      List.mem_mergeSort.mpr <| List.mem_map_of_mem <| List.mem_of_find?_eq_some hf
    obtain ⟨m, hm, ha⟩ := exists_mem_firsts hmem
    obtain ⟨g, hg, hfind, _⟩ := exists_of_mem_left hfs (hmarks ▸ hm)
    rw [ha] at hfind
    cases hfind.symm.trans hf
    exact hg

namespace Leaders

theorem mem (h : Leaders functions fs) {f : Symbol} (hf : f ∈ fs) : f ∈ functions :=
  List.mem_of_find?_eq_some ((h.first f).mp hf)

theorem exists_of_mem (h : Leaders functions fs) {f : Symbol} (hf : f ∈ functions) :
    ∃ g ∈ fs, g.address = f.address := by
  cases hg : functions.find? (·.address = f.address)
  case none => simpa using List.find?_eq_none.mp hg f hf
  case some g =>
    have ha : g.address = f.address := by simpa using List.find?_some hg
    exact ⟨g, (h.first g).mpr (ha ▸ hg), ha⟩

theorem eq_nil_iff (h : Leaders functions fs) : fs = [] ↔ functions = [] := by
  simp only [List.eq_nil_iff_forall_not_mem]
  constructor
  case mp =>
    intro hn f hf
    obtain ⟨g, hg, _⟩ := h.exists_of_mem hf
    exact hn g hg
  case mpr => exact fun hn f hf => hn f (h.mem hf)

theorem mem_addresses (h : Leaders functions fs) (a : Nat) :
    a ∈ fs.map Symbol.address ↔ a ∈ functions.map Symbol.address := by
  constructor
  case mp =>
    intro ha
    obtain ⟨f, hf, he⟩ := List.mem_map.mp ha
    exact he ▸ List.mem_map_of_mem (h.mem hf)
  case mpr =>
    intro ha
    obtain ⟨f, hf, he⟩ := List.mem_map.mp ha
    obtain ⟨g, hg, hge⟩ := h.exists_of_mem hf
    exact List.mem_map.mpr ⟨g, hg, hge.trans he⟩

theorem nodup (h : Leaders functions fs) : (fs.map Symbol.address).Nodup :=
  List.pairwise_map.mpr (h.ascending.imp Nat.ne_of_lt)

-- If no two functions begin at one address, all of them lead.
theorem mem_iff (h : Leaders functions fs) (hd : functions.Pairwise (·.address ≠ ·.address)) {f : Symbol} :
    f ∈ fs ↔ f ∈ functions := by
  refine ⟨h.mem, fun hf => ?_⟩
  obtain ⟨g, hg, ha⟩ := h.exists_of_mem hf
  exact List.inj_on_of_nodup_map (List.pairwise_map.mpr hd) (h.mem hg) hf ha ▸ hg

-- There is one way only to put leaders in order.
theorem eq_of_mem_iff (h : Leaders functions fs) (h' : Leaders symbols gs)
    (hm : ∀ f, f ∈ fs ↔ f ∈ gs) : fs = gs :=
  eq_of_ascending h.ascending h'.ascending hm

theorem eq_mergeSort (h : Leaders functions fs) (hd : functions.Pairwise (·.address ≠ ·.address)) :
    functions.mergeSort (·.address ≤ ·.address) = fs := by
  have hne {f g : Symbol} (hf : f ∈ functions) (hg : g ∈ functions) (ha : f.address = g.address) :
      f = g :=
    List.inj_on_of_nodup_map (List.pairwise_map.mpr hd) hf hg ha
  have hp : functions.Perm fs :=
    (List.perm_ext_iff_of_nodup (.of_map Symbol.address (List.pairwise_map.mpr hd))
      (.of_map Symbol.address h.nodup)).mpr fun _ => (h.mem_iff hd).symm
  have hs : (functions.mergeSort (·.address ≤ ·.address)).Pairwise (·.address ≤ ·.address) :=
    pairwise_mergeSort_key Symbol.address functions
  refine ((List.mergeSort_perm ..).trans hp).eq_of_pairwise ?_ hs (h.ascending.imp Nat.le_of_lt)
  intro f g hf hg hle hge
  exact hne (List.mem_mergeSort.mp hf) (h.mem hg) (Nat.le_antisymm hle hge)

-- There are as many leaders as functions only if no two functions begin at one address.
theorem pairwise_of_length (h : Leaders functions fs) (hl : functions.length = fs.length) :
    functions.Pairwise (·.address ≠ ·.address) := by
  have hp : (functions.map Symbol.address).dedup.Perm (fs.map Symbol.address) :=
    (List.perm_ext_iff_of_nodup (List.nodup_dedup _) h.nodup).mpr fun a => by
      rw [List.mem_dedup, h.mem_addresses]
  have hl : (functions.map Symbol.address).dedup.length = (functions.map Symbol.address).length := by
    rw [hp.length_eq, List.length_map, List.length_map, hl]
  have he := (List.dedup_sublist (functions.map Symbol.address)).eq_of_length hl
  exact List.pairwise_map.mp (he ▸ List.nodup_dedup _)

end Leaders

-- The part of a leader ends where the part of the function does, as other functions at an address
-- make no difference.
theorem ranges_eq {rs : List Range} (h : ranges symbols number length kind = .ok rs) : ∃ fs,
    Leaders (beginnings symbols number kind) fs ∧
      rs = fs.map (rangeOf (beginnings symbols number kind) length) := by
  obtain ⟨fs, hfs, hm⟩ := exists_leaders symbols number kind
  refine ⟨fs, hfs, ?_⟩
  have ha : (fs.map markOf).map Mark.address = fs.map Symbol.address := List.map_map
  rw [rangesOf_eq_map marks_pairwise h, hm, ha, List.map_map]
  refine List.map_congr_left fun f _ => ?_
  simp only [Function.comp, markOf, rangeOf]
  rw [stopAmong_congr hfs.mem_addresses]

end EbpfManager.Object
