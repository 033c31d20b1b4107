import EbpfManager.CpuList
import EbpfManager.Proofs.Blanks
import EbpfManager.Proofs.Results
import Mathlib.Data.List.TakeWhile
import Mathlib.Data.Set.Card

namespace EbpfManager

open Text (IsNumeral isBlank trim trimEnd word32? word32?_eq_some)

namespace CpuRange

variable {r : CpuRange} {writes : Nat → List Char → Prop} {text : List Char}

structure Valid (r : CpuRange) : Prop where
  ascending : r.first ≤ r.last
  word      : r.last < 2 ^ 32

-- A range is written as its first and its last processor. One number will do where they are the same.
inductive Written (writes : Nat → List Char → Prop) (r : CpuRange) : List Char → Prop
  | one {number : List Char}     : r.first = r.last → writes r.first number → Written writes r number
  | two {first last : List Char} : writes r.first first → writes r.last last →
      Written writes r (first ++ '-' :: last)

theorem takeWhile_append_dash {first : List Char} (last : List Char) (hf : ∀ c ∈ first, c ≠ '-') :
    (first ++ '-' :: last).takeWhile (· ≠ '-') = first ∧
      (first ++ '-' :: last).dropWhile (· ≠ '-') = '-' :: last := by
  have hf : ∀ c ∈ first, decide (c ≠ '-') := by simpa using hf
  rw [List.takeWhile_append_of_pos hf, List.dropWhile_append_of_pos hf]
  simp

theorem ne_dash {n : Nat} {number : List Char} (h : IsNumeral n number) : ∀ c ∈ number, c ≠ '-' := by
  rintro c hc rfl
  exact absurd (h.mem hc) (by decide)

-- The numbers have no minus sign, so that a text is divided behind the first one.
theorem parse?_eq_some : parse? text = some r ↔ r.Valid ∧ r.Written IsNumeral text := by
  simp only [parse?, Option.bind_eq_bind, Option.bind_eq_some_iff]
  constructor
  case mp =>
    rintro ⟨first, hf, hr⟩
    obtain ⟨hf, hfw⟩ := word32?_eq_some.mp hf
    have ht := List.takeWhile_append_dropWhile (p := (· ≠ '-')) (l := text)
    split at hr
    case h_1 hd =>
      obtain ⟨last, he, hr⟩ := Option.bind_eq_some_iff.mp hr
      cases he
      rw [if_neg (lt_irrefl first)] at hr
      cases hr
      rw [hd, List.append_nil] at ht
      exact ⟨⟨le_refl _, hfw⟩, .one rfl (ht ▸ hf)⟩
    case h_2 c rest hd =>
      obtain ⟨last, hl, hr⟩ := Option.bind_eq_some_iff.mp hr
      obtain ⟨hl, hlw⟩ := word32?_eq_some.mp hl
      have hc := List.head?_dropWhile_not (· ≠ '-') text
      rw [hd] at hc
      have hc : c = '-' := by simpa using hc
      rw [hd, hc] at ht
      split at hr
      case isTrue       => cases hr
      case isFalse hle =>
        cases hr
        exact ⟨⟨not_lt.mp hle, hlw⟩, ht ▸ .two hf hl⟩
  case mpr =>
    rintro ⟨hv, hw⟩
    cases hw
    case one he hn =>
      obtain ⟨first, last⟩ := r
      cases (he : first = last)
      have hd : ∀ c ∈ text, decide (c ≠ '-') := by simpa using ne_dash hn
      rw [List.takeWhile_eq_self_iff.mpr hd, List.dropWhile_eq_nil_iff.mpr hd]
      exact ⟨first, word32?_eq_some.mpr ⟨hn, hv.word⟩, by simp⟩
    case two first last hf hl =>
      obtain ⟨ht, hd⟩ := takeWhile_append_dash last (ne_dash hf)
      have hlast := word32?_eq_some.mpr ⟨hl, hv.word⟩
      rw [ht, hd]
      exact ⟨r.first, word32?_eq_some.mpr ⟨hf, hv.ascending.trans_lt hv.word⟩, by simp [hlast, hv.ascending]⟩

-- Nothing in a range is taken for white space or for a comma.
theorem Written.mem {c : Char} (hw : r.Written IsNumeral text) (hc : c ∈ text) : isBlank c = false ∧ c ≠ ',' := by
  have number {n : Nat} {number : List Char} (h : IsNumeral n number) (hc : c ∈ number) :
      isBlank c = false ∧ c ≠ ',' := by
    cases h.mem hc
    case inl he => exact he ▸ by decide
    case inr hd => exact ⟨Text.isBlank_of_isDigit hd, fun he => absurd (he ▸ hd) (by decide)⟩
  cases hw
  case one h => exact number h hc
  case two hf hl =>
    cases List.mem_append.mp hc
    case inl hc => exact number hf hc
    case inr hc =>
      cases List.mem_cons.mp hc
      case inl he => exact he ▸ by decide
      case inr hc => exact number hl hc

theorem mem_toList {n : Nat} (hv : r.first ≤ r.last) : n ∈ r.toList ↔ r.first ≤ n ∧ n ≤ r.last := by
  rw [toList, List.mem_range'_1]
  omega

end CpuRange

namespace CpuList

variable {ranges : List CpuRange} {writes : Nat → List Char → Prop} {text : String} {cpus : List Nat}

-- That a text is a list of ranges. Between two commas there may be nothing.
def Lists (writes : Nat → List Char → Prop) (ranges : List CpuRange) (text : List Char) : Prop :=
  ∃ lead pieces trail, (∀ c ∈ lead, isBlank c) ∧ (∀ c ∈ trail, isBlank c) ∧
    text = lead ++ [','].intercalate pieces ++ trail ∧
    List.Forall₂ (fun r piece => r.Written writes piece) ranges (pieces.filter (· ≠ []))

theorem mem_intercalate {pieces : List (List Char)} {c : Char} (hc : c ∈ [','].intercalate pieces) :
    c = ',' ∨ ∃ piece ∈ pieces, c ∈ piece := by
  induction pieces
  case nil => cases hc
  case cons piece pieces ih =>
    by_cases hn : pieces = []
    case pos =>
      have hc : c ∈ piece := by simpa [hn, List.intercalate] using hc
      exact .inr ⟨piece, List.mem_cons_self, hc⟩
    case neg =>
      rw [List.intercalate_cons_of_ne_nil hn, List.mem_append, List.mem_append, List.mem_singleton] at hc
      obtain (hc | hc) | hc := hc
      case inl.inl => exact .inr ⟨piece, List.mem_cons_self, hc⟩
      case inl.inr => exact .inl hc
      case inr     => exact (ih hc).imp_right fun ⟨piece, hm, hc⟩ => ⟨piece, List.mem_cons_of_mem _ hm, hc⟩

-- The pieces can be told from the text: they have no commas, and neither pieces nor commas are taken away with the
-- white space.
theorem filter_splitOn_trim {t : List Char} (h : Lists IsNumeral ranges t) : List.Forall₂
    (fun r piece => r.Written IsNumeral piece) ranges (((trim t).splitOn ',').filter (· ≠ [])) := by
  obtain ⟨lead, pieces, trail, hl, ht, rfl, hw⟩ := h
  have written {piece c} (hp : piece ∈ pieces) (hc : c ∈ piece) : isBlank c = false ∧ c ≠ ',' := by
    have hf : piece ∈ pieces.filter (· ≠ []) := List.mem_filter.mpr ⟨hp, by simpa using List.ne_nil_of_mem hc⟩
    obtain ⟨r, _, hr⟩ := exists_of_mem_right hw hf
    exact hr.mem hc
  have hb : ∀ c ∈ [','].intercalate pieces, isBlank c = false := by
    intro c hc
    obtain rfl | ⟨piece, hp, hc⟩ := mem_intercalate hc
    case inl => decide
    case inr => exact (written hp hc).left
  rw [Text.trim_append hl hb ht]
  by_cases hn : pieces = []
  case pos => simpa [hn, List.intercalate] using hw
  case neg => rwa [List.splitOn_intercalate ',' (fun piece hp hc => (written hp hc).right rfl) hn]

theorem mapM_parse?_eq_some {t : List Char} :
    (((trim t).splitOn ',').filter (· ≠ [])).mapM CpuRange.parse? = some ranges ↔
      (∀ r ∈ ranges, r.Valid) ∧ Lists IsNumeral ranges t := by
  rw [mapM_eq_some]
  constructor
  case mp =>
    intro h
    obtain ⟨lead, trail, hl, ht, he⟩ := Text.exists_append_trim t
    refine ⟨fun r hr => ?_, lead, (trim t).splitOn ',', trail, hl, ht, ?_, ?_⟩
    case refine_1 =>
      obtain ⟨piece, _, hp⟩ := exists_of_mem_right h hr
      exact (CpuRange.parse?_eq_some.mp hp).left
    case refine_2 => rwa [List.intercalate_splitOn]
    case refine_3 => exact h.flip.imp fun r piece hp => (CpuRange.parse?_eq_some.mp hp).right
  case mpr =>
    rintro ⟨hv, h⟩
    refine (List.Forall₂.imp ?_ (List.forall₂_and_left ..|>.mpr ⟨hv, filter_splitOn_trim h⟩)).flip
    exact fun r piece h => CpuRange.parse?_eq_some.mpr h

theorem parse_of_lists (hn : ranges ≠ []) (hv : ∀ r ∈ ranges, r.Valid) (h : Lists IsNumeral ranges text.toList) :
    parse text = .ok (ranges.flatMap CpuRange.toList) := by
  simp only [parse, mapM_parse?_eq_some.mpr ⟨hv, h⟩]

theorem parse_eq_error
    (h : ¬∃ ranges, ranges ≠ [] ∧ (∀ r ∈ ranges, r.Valid) ∧ Lists IsNumeral ranges text.toList) :
    parse text = .error ⟨String.ofList (trim text.toList)⟩ := by
  simp only [parse]
  split
  case h_1 | h_2 => rfl
  case h_3 ranges hn hm => exact absurd ⟨ranges, hn, mapM_parse?_eq_some.mp hm⟩ h

theorem parse_eq_ok_iff : parse text = .ok cpus ↔ ∃ ranges, ranges ≠ [] ∧ (∀ r ∈ ranges, r.Valid) ∧
    Lists IsNumeral ranges text.toList ∧ cpus = ranges.flatMap CpuRange.toList := by
  constructor
  case mp =>
    intro hp
    by_contra hn
    have he : parse text = .error _ := parse_eq_error fun ⟨ranges, hr, hv, h⟩ =>
      hn ⟨ranges, hr, hv, h, Except.ok.inj (hp.symm.trans (parse_of_lists hr hv h))⟩
    cases hp.symm.trans he
  case mpr =>
    rintro ⟨ranges, hn, hv, h, rfl⟩
    exact parse_of_lists hn hv h

theorem Lists.imp {writes' : Nat → List Char → Prop} {t : List Char} (h : Lists writes ranges t)
    (hw : ∀ n number, writes n number → writes' n number) : Lists writes' ranges t := by
  obtain ⟨lead, pieces, trail, hl, ht, he, hf⟩ := h
  refine ⟨lead, pieces, trail, hl, ht, he, hf.imp fun r piece h => ?_⟩
  cases h
  case one he h  => exact .one he (hw _ _ h)
  case two hf hl => exact .two (hw _ _ hf) (hw _ _ hl)

-- The processors of ranges that go up, without any of them in two ranges.
theorem ascending (hv : ∀ r ∈ ranges, r.Valid) (hp : ranges.Pairwise (·.last < ·.first)) :
    (ranges.flatMap CpuRange.toList).Pairwise (· < ·) ∧
      (ranges.flatMap CpuRange.toList).length = {n | ∃ r ∈ ranges, r.first ≤ n ∧ n ≤ r.last}.ncard := by
  have hm {n} : n ∈ ranges.flatMap CpuRange.toList ↔ ∃ r ∈ ranges, r.first ≤ n ∧ n ≤ r.last := by
    rw [List.mem_flatMap]
    exact exists_congr fun r => and_congr_right fun hr => CpuRange.mem_toList (hv r hr).ascending
  have hlt : (ranges.flatMap CpuRange.toList).Pairwise (· < ·) := by
    refine List.pairwise_flatMap.mpr ⟨fun r _ => List.pairwise_lt_range' 1, hp.imp_of_mem ?_⟩
    intro r r' hr hr' hlt n hn n' hn'
    have hn := (CpuRange.mem_toList (hv r hr).ascending).mp hn
    have hn' := (CpuRange.mem_toList (hv r' hr').ascending).mp hn'
    omega
  refine ⟨hlt, ?_⟩
  have hs : {n | ∃ r ∈ ranges, r.first ≤ n ∧ n ≤ r.last} = ↑(ranges.flatMap CpuRange.toList).toFinset := by
    ext n
    simp [← hm]
  rw [hs, Set.ncard_coe_finset, List.toFinset_card_of_nodup (hlt.imp Nat.ne_of_lt)]

-- A text is read just if it is a list of ranges, and what is read are the processors of the ranges.
theorem parse_exact (text : String) :
    (∀ ranges, ranges ≠ [] → (∀ r ∈ ranges, r.Valid) →
      Lists (fun n number => number = Nat.toDigits 10 n) ranges text.toList →
      parse text = .ok (ranges.flatMap CpuRange.toList) ∧
        (ranges.Pairwise (·.last < ·.first) → (ranges.flatMap CpuRange.toList).Pairwise (· < ·) ∧
          (ranges.flatMap CpuRange.toList).length = {n | ∃ r ∈ ranges, r.first ≤ n ∧ n ≤ r.last}.ncard)) ∧
    (∀ cpus, parse text = .ok cpus ↔ ∃ ranges, ranges ≠ [] ∧ (∀ r ∈ ranges, r.Valid) ∧
      Lists IsNumeral ranges text.toList ∧ cpus = ranges.flatMap CpuRange.toList) ∧
    ((¬∃ ranges, ranges ≠ [] ∧ (∀ r ∈ ranges, r.Valid) ∧ Lists IsNumeral ranges text.toList) ↔
      parse text = .error ⟨String.ofList (trim text.toList)⟩) := by
  refine ⟨fun ranges hn hv h => ⟨?_, ascending hv⟩, fun cpus => parse_eq_ok_iff, parse_eq_error, ?_⟩
  case refine_1 => exact parse_of_lists hn hv (h.imp fun n number he => he ▸ Text.isNumeral_toDigits n)
  case refine_2 =>
    rintro he ⟨ranges, hn, hv, h⟩
    cases he.symm.trans (parse_of_lists hn hv h)

example : parse " 0-2,,5\n" = .ok [0, 1, 2, 5] := by decide

-- Two ranges with nothing between two of the commas, and one that goes down.
theorem parse_exact_of_gap :
    parse " 0-2,,5\n" = .ok [0, 1, 2, 5] ∧ [0, 1, 2, 5].Pairwise (· < ·) ∧
      4 = {n | ∃ r ∈ [CpuRange.mk 0 2, ⟨5, 5⟩], r.first ≤ n ∧ n ≤ r.last}.ncard ∧
      parse "2-0" = .error ⟨"2-0"⟩ ∧
      ¬∃ ranges, ranges ≠ [] ∧ (∀ r ∈ ranges, r.Valid) ∧ Lists IsNumeral ranges "2-0".toList := by
  have hv : ∀ r ∈ [CpuRange.mk 0 2, ⟨5, 5⟩], r.Valid :=
    List.forall_mem_cons.mpr ⟨⟨by decide, by decide⟩, List.forall_mem_singleton.mpr ⟨by decide, by decide⟩⟩
  have hw : CpuRange.Written (fun n number => number = Nat.toDigits 10 n) ⟨0, 2⟩ (['0'] ++ '-' :: ['2']) :=
    .two rfl rfl
  have hl : Lists (fun n number => number = Nat.toDigits 10 n) [⟨0, 2⟩, ⟨5, 5⟩] " 0-2,,5\n".toList := by
    refine ⟨[' '], [['0', '-', '2'], [], ['5']], ['\n'], ?_, ?_, rfl, .cons hw (.cons (.one rfl rfl) .nil)⟩
    all_goals exact List.forall_mem_singleton.mpr rfl
  obtain ⟨hok, hordered⟩ := (parse_exact " 0-2,,5\n").left _ (by decide) hv hl
  obtain ⟨hascending, hlength⟩ := hordered (by decide)
  have herror : parse "2-0" = .error ⟨"2-0"⟩ := by decide
  exact ⟨hok, hascending, hlength, herror, (parse_exact "2-0").right.right.mpr herror⟩

end CpuList

end EbpfManager
