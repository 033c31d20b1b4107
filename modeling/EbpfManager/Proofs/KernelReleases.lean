import EbpfManager.KernelRelease
import EbpfManager.Proofs.Blanks
import EbpfManager.Proofs.Results
import Mathlib.Data.Prod.Lex

namespace EbpfManager.KernelRelease

open Text (isBlank trim word32? word32?_eq_some)

variable {c : Char} {gap text run after : List Char}

section Numerals

theorem numerals_append_cons (hc : c.isDigit = false) (before after : List Char) :
    numerals (before ++ c :: after) = numerals before ++ numerals after := by
  rw [numerals, List.splitOnP_append_cons _ _ (by simp [hc]), List.filter_append]
  rfl

theorem numerals_gap_append (hg : ∀ c ∈ gap, c.isDigit = false) (text : List Char) :
    numerals (gap ++ text) = numerals text := by
  induction gap
  case nil => rfl
  case cons c gap ih =>
    obtain ⟨hc, hg⟩ := List.forall_mem_cons.mp hg
    rw [List.cons_append, ← ih hg]
    exact numerals_append_cons hc [] (gap ++ text)

theorem numerals_append_gap (hg : ∀ c ∈ gap, c.isDigit = false) (text : List Char) :
    numerals (text ++ gap) = numerals text := by
  cases gap
  case nil => rw [List.append_nil]
  case cons c gap =>
    obtain ⟨hc, hg⟩ := List.forall_mem_cons.mp hg
    have hn : numerals (gap ++ []) = [] := numerals_gap_append hg []
    rw [List.append_nil] at hn
    rw [numerals_append_cons hc, hn, List.append_nil]

theorem numerals_run (hd : ∀ c ∈ run, c.isDigit) (hn : run ≠ []) : numerals run = [run] := by
  rw [numerals, List.splitOnP_eq_singleton (by simpa using hd)]
  simp [hn]

theorem numerals_run_append (hd : ∀ c ∈ run, c.isDigit) (hn : run ≠ [])
    (ha : ∀ c ∈ after.head?, c.isDigit = false) :
    numerals (run ++ after) = run :: numerals after := by
  cases after
  case nil => rw [List.append_nil, numerals_run hd hn]; rfl
  case cons c after =>
    have hc : c.isDigit = false := ha c rfl
    rw [numerals_append_cons hc, numerals_run hd hn, ← List.nil_append (c :: after), numerals_append_cons hc]
    rfl

-- The first numeral of a text. No digits stand before it, and none behind it continues it.
def First (run text : List Char) : Prop :=
  ∃ gap after, text = gap ++ run ++ after ∧ (∀ c ∈ gap, c.isDigit = false) ∧ run ≠ [] ∧
    (∀ c ∈ run, c.isDigit) ∧
    ∀ c ∈ after.head?, c.isDigit = false

theorem exists_first (hc : c ∈ text) (hd : c.isDigit) : ∃ run, First run text := by
  let rest := text.dropWhile (!·.isDigit)
  have hrest : ∃ c rest', rest = c :: rest' ∧ c.isDigit := by
    cases he : rest
    case nil =>
      have hc := List.dropWhile_eq_nil_iff.mp he c hc
      simp [hd] at hc
    case cons c rest' =>
      have hc := List.head?_dropWhile_not (!·.isDigit) text
      simp only [show text.dropWhile (!·.isDigit) = c :: rest' from he, List.head?_cons] at hc
      exact ⟨c, rest', rfl, by simpa using hc⟩
  obtain ⟨c', rest', he, hc'⟩ := hrest
  refine ⟨rest.takeWhile (·.isDigit), text.takeWhile (!·.isDigit), rest.dropWhile (·.isDigit),
    ?_, ?_, ?_, ?_, ?_⟩
  case refine_1 => rw [List.append_assoc, List.takeWhile_append_dropWhile, List.takeWhile_append_dropWhile]
  case refine_2 => exact fun c hc => by simpa using List.mem_takeWhile_imp hc
  case refine_3 => simp [he, hc']
  case refine_4 => exact fun c hc => List.mem_takeWhile_imp hc
  case refine_5 =>
    intro c hc
    have hn := List.head?_dropWhile_not (·.isDigit) rest
    rw [Option.mem_def.mp hc] at hn
    exact hn

theorem First.head?_numerals (h : First run text) : (numerals text).head? = some run := by
  obtain ⟨gap, after, rfl, hg, hn, hd, ha⟩ := h
  rw [List.append_assoc, numerals_gap_append hg, numerals_run_append hd hn ha, List.head?_cons]

theorem head?_numerals_eq_none : (numerals text).head? = none ↔ ∀ c ∈ text, c.isDigit = false := by
  constructor
  case mp =>
    intro h c hc
    by_contra hd
    obtain ⟨run, hr⟩ := exists_first hc (Bool.eq_true_of_not_eq_false hd)
    cases h.symm.trans hr.head?_numerals
  case mpr =>
    intro hg
    rw [← List.append_nil text, numerals_gap_append hg]
    rfl

theorem head?_numerals_eq_some : (numerals text).head? = some run ↔ First run text := by
  refine ⟨fun h => ?_, First.head?_numerals⟩
  have hd : ∃ c ∈ text, c.isDigit := by
    by_contra hn
    have hg : ∀ c ∈ text, c.isDigit = false := by simpa using hn
    cases h.symm.trans (head?_numerals_eq_none.mpr hg)
  obtain ⟨c, hc, hd⟩ := hd
  obtain ⟨run', hr⟩ := exists_first hc hd
  cases h.symm.trans hr.head?_numerals
  exact hr

theorem First.word32?_eq_none (h : First run text) : word32? run = none ↔ 2 ^ 32 ≤ Nat.ofDigitChars 10 run 0 := by
  obtain ⟨_, _, _, _, hn, hd, _⟩ := h
  exact Text.word32?_eq_none hd hn

-- White space has no digits.
theorem isDigit_of_isBlank (hc : isBlank c) : c.isDigit = false := by
  by_contra hd
  cases hc.symm.trans (Text.isBlank_of_isDigit (Bool.eq_true_of_not_eq_false hd))

theorem numerals_trim (text : List Char) : numerals (trim text) = numerals text := by
  obtain ⟨lead, trail, hl, ht, he⟩ := Text.exists_append_trim text
  conv_rhs => rw [he]
  rw [numerals_append_gap fun c hc => isDigit_of_isBlank (ht c hc),
    numerals_gap_append fun c hc => isDigit_of_isBlank (hl c hc)]

end Numerals

theorem parse_eq_none {text : String} : parse text = .ok none ↔ (numerals text.toList).head?.bind word32? = none := by
  have hh : ((numerals text.toList).map word32?).head?.join = (numerals text.toList).head?.bind word32? := by
    rw [List.head?_map]
    cases (numerals text.toList).head? <;> rfl
  simp only [parse, numerals_trim, hh]
  split
  case h_1 hn       => simp [hn]
  case h_2 major hm => simp [hm]

structure Release where
  major : Nat
  minor : Nat
  patch : Nat

namespace Release

variable {r r' : Release}

-- The releases that a code has room for.
structure Fits (r : Release) : Prop where
  major : r.major < 2 ^ 16
  minor : r.minor < 2 ^ 8
  patch : r.patch < 2 ^ 32

-- The numbers by their weight, as far as a code tells them.
def rank (r : Release) : Nat ×ₗ Nat ×ₗ Nat :=
  toLex (r.major, toLex (r.minor, min r.patch 255))

def code (r : Release) : Nat :=
  r.major * 65536 + r.minor * 256 + min r.patch 255

-- A text that begins with the release. Something else may follow that does not continue the last number, and there
-- may be white space around it all.
def Written (r : Release) (text : List Char) : Prop :=
  ∃ lead suffix trail, (∀ c ∈ lead, isBlank c) ∧ (∀ c ∈ trail, isBlank c) ∧
    (∀ c ∈ suffix.head?, c.isDigit = false) ∧
    text = lead ++ (Nat.toDigits 10 r.major ++ '.' :: Nat.toDigits 10 r.minor ++ '.' :: Nat.toDigits 10 r.patch ++
      suffix) ++ trail

theorem code_lt (h : r.Fits) : r.code < 2 ^ 32 := by
  obtain ⟨ha, hb, _⟩ := h
  unfold code
  omega

theorem code_eq (h : r.Fits) : KernelRelease.code r.major r.minor r.patch = .ok r.code := by
  have hlt := code_lt h
  obtain ⟨ha, hb, _⟩ := h
  have hs : r.major * 0x10000 % 0x100000000 + r.minor * 0x100 % 0x100000000 + min r.patch 255 = r.code := by
    unfold code
    omega
  simp only [KernelRelease.code, hs]
  exact if_pos hlt

-- The lower numbers have no room to reach the higher ones.
theorem code_lt_code_iff (h : r.Fits) (h' : r'.Fits) : r.code < r'.code ↔ r.rank < r'.rank := by
  have hb := h.minor
  have hb' := h'.minor
  simp only [rank, Prod.Lex.toLex_lt_toLex, code]
  omega

theorem code_eq_code_iff (h : r.Fits) (h' : r'.Fits) : r.code = r'.code ↔ r.rank = r'.rank := by
  have hb := h.minor
  have hb' := h'.minor
  simp only [rank, toLex_inj, Prod.mk.injEq, code]
  omega

theorem Written.numerals {text : List Char} (h : r.Written text) : ∃ rest, numerals text =
    Nat.toDigits 10 r.major :: Nat.toDigits 10 r.minor :: Nat.toDigits 10 r.patch :: rest := by
  obtain ⟨lead, suffix, trail, hl, ht, hs, rfl⟩ := h
  have digits (n : Nat) : ∀ c ∈ Nat.toDigits 10 n, c.isDigit :=
    fun c hc => Nat.isDigit_of_mem_toDigits (by decide) (by decide) hc
  have ne_nil (n : Nat) : Nat.toDigits 10 n ≠ [] := (Text.isNumeral_toDigits n).ne_nil
  have hdot : '.'.isDigit = false := rfl
  refine ⟨KernelRelease.numerals suffix, ?_⟩
  rw [numerals_append_gap fun c hc => isDigit_of_isBlank (ht c hc),
    numerals_gap_append fun c hc => isDigit_of_isBlank (hl c hc), List.append_assoc, List.append_assoc,
    List.cons_append, List.cons_append, numerals_append_cons hdot, numerals_append_cons hdot,
    numerals_run (digits _) (ne_nil _), numerals_run (digits _) (ne_nil _),
    numerals_run_append (digits _) (ne_nil _) hs]
  rfl

theorem Written.parse_eq {text : String} (hw : r.Written text.toList) (h : r.Fits) :
    parse text = .ok (some r.code) := by
  have word {n : Nat} (hn : n < 2 ^ 32) : word32? (Nat.toDigits 10 n) = some n :=
    word32?_eq_some.mpr ⟨Text.isNumeral_toDigits n, hn⟩
  have ha := word (h.major.trans (by decide))
  have hb := word (h.minor.trans (by decide))
  have hc := word h.patch
  obtain ⟨rest, hn⟩ := hw.numerals
  simp [parse, numerals_trim, hn, ha, hb, hc, code_eq h]

end Release

-- What begins with a release is read as its code, and codes are in the order of their releases. There is no code
-- just where the first numeral is missing or has more than 32 bits.
theorem parse_ordered :
    (∀ (r : Release) (text : String), r.Fits → r.Written text.toList →
      parse text = .ok (some r.code) ∧ r.code < 2 ^ 32) ∧
    (∀ r r' : Release, r.Fits → r'.Fits →
      (r.code < r'.code ↔ r.rank < r'.rank) ∧ (r.code = r'.code ↔ r.rank = r'.rank)) ∧
    ∀ text : String, parse text = .ok none ↔ (∀ c ∈ text.toList, c.isDigit = false) ∨
      ∃ run, First run text.toList ∧ 2 ^ 32 ≤ Nat.ofDigitChars 10 run 0 := by
  refine ⟨fun r text h hw => ⟨hw.parse_eq h, r.code_lt h⟩,
    fun r r' h h' => ⟨Release.code_lt_code_iff h h', Release.code_eq_code_iff h h'⟩, fun text => ?_⟩
  rw [parse_eq_none, Option.bind_eq_none_iff, ← head?_numerals_eq_none]
  constructor
  case mp =>
    intro h
    cases hr : (numerals text.toList).head?
    case none => exact .inl rfl
    case some run =>
      have hl := head?_numerals_eq_some.mp hr
      exact .inr ⟨run, hl, hl.word32?_eq_none.mp (h run hr)⟩
  case mpr =>
    rintro (hn | ⟨run, hl, hle⟩) run' hr
    case inl => cases hn.symm.trans hr
    case inr =>
      cases hl.head?_numerals.symm.trans hr
      exact hl.word32?_eq_none.mpr hle

theorem parse_ordered_of_spaced :
    (⟨6, 1, 0⟩ : Release).Fits ∧ (⟨6, 1, 0⟩ : Release).Written " 6.1.0-13-amd64\n".toList ∧
      parse " 6.1.0-13-amd64\n" = .ok (some 393472) ∧
      (⟨5, 255, 300⟩ : Release).Fits ∧ (⟨5, 255, 300⟩ : Release).code < 393472 ∧
      parse "v4294967296.1" = .ok none := by
  have h : (⟨6, 1, 0⟩ : Release).Fits := ⟨by decide, by decide, by decide⟩
  have h' : (⟨5, 255, 300⟩ : Release).Fits := ⟨by decide, by decide, by decide⟩
  have hw : (⟨6, 1, 0⟩ : Release).Written " 6.1.0-13-amd64\n".toList :=
    ⟨[' '], "-13-amd64".toList, ['\n'], by simp [isBlank], by simp [isBlank], by simp, by decide⟩
  have hl : First "4294967296".toList "v4294967296.1".toList :=
    ⟨['v'], ".1".toList, by decide, by simp, by decide, by simp, by simp⟩
  obtain ⟨hcode, hrank, hnone⟩ := parse_ordered
  exact ⟨h, hw, (hcode _ _ h hw).left, h', (hrank _ _ h' h).left.mpr (Prod.Lex.toLex_lt_toLex.mpr (.inl (by decide))),
    (hnone _).mpr (.inr ⟨_, hl, by decide⟩)⟩

end EbpfManager.KernelRelease
