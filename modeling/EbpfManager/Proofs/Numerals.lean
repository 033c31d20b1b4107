import EbpfManager.Text.Numeral
import Mathlib.Algebra.Ring.Nat
import Mathlib.Data.List.Induction

namespace EbpfManager.Text

variable {acc n : Nat} {c : Char} {digits text : List Char}

-- The ways to write a number. What the kernel writes has neither sign nor zeros.
def IsNumeral (n : Nat) (text : List Char) : Prop :=
  ∃ sign zeros, (sign = [] ∨ sign = ['+']) ∧ text = sign ++ (List.replicate zeros '0' ++ Nat.toDigits 10 n)

theorem isNumeral_toDigits (n : Nat) : IsNumeral n (Nat.toDigits 10 n) :=
  ⟨[], 0, .inl rfl, rfl⟩

theorem digits?_eq_some : digits? acc digits = some n ↔
    (∀ c ∈ digits, c.isDigit) ∧ Nat.ofDigitChars 10 digits acc = n := by
  induction digits generalizing acc
  case nil => simp [digits?]
  case cons c digits ih =>
    have hz : '0'.toNat = 48 := rfl
    rw [digits?, Nat.ofDigitChars_cons, hz, Nat.mul_comm 10]
    by_cases hc : c.isDigit <;> simp [hc, ih]

theorem digit_bounds (hc : c.isDigit) : 48 ≤ c.toNat ∧ c.toNat ≤ 57 :=
  Char.isDigit_iff_toNat.mp hc

theorem toDigits_of_isDigit (hc : c.isDigit) : Nat.toDigits 10 (c.toNat - 48) = [c] := by
  obtain ⟨hl, hu⟩ := digit_bounds hc
  have hlt : c.toNat - 48 < 10 := by omega
  have he : Nat.digitChar (c.toNat - 48) = c := by
    refine Char.toNat_inj.mp ?_
    rw [Nat.toNat_digitChar_of_lt_ten hlt]
    omega
  rw [Nat.toDigits_of_lt_base hlt, he]

-- By induction on the last digit: it goes behind the numeral of what the others say, unless they say nothing.
theorem eq_zeros_append (hd : ∀ c ∈ digits, c.isDigit) (hn : digits ≠ []) :
    ∃ zeros, digits = List.replicate zeros '0' ++ Nat.toDigits 10 (Nat.ofDigitChars 10 digits 0) := by
  induction digits using List.reverseRecOn
  case nil => exact absurd rfl hn
  case append_singleton digits c ih =>
    have hc : c.isDigit := hd c (by simp)
    have hlast := toDigits_of_isDigit hc
    have hz : '0'.toNat = 48 := rfl
    rw [Nat.ofDigitChars_append, Nat.ofDigitChars_cons, Nat.ofDigitChars_nil, hz]
    by_cases hne : digits = []
    case pos => exact ⟨0, by simp [hne, hlast]⟩
    case neg =>
      obtain ⟨zeros, he⟩ := ih (fun c hm => hd c (by simp [hm])) hne
      generalize Nat.ofDigitChars 10 digits 0 = n at he
      by_cases h0 : n = 0
      case pos =>
        refine ⟨zeros + 1, ?_⟩
        rw [he, h0, Nat.mul_zero, Nat.zero_add, hlast, Nat.toDigits_zero, List.replicate_succ']
      case neg =>
        obtain ⟨hl, hu⟩ := digit_bounds hc
        refine ⟨zeros, ?_⟩
        rw [← Nat.toDigits_append_toDigits (by decide) (Nat.pos_of_ne_zero h0) (by omega), hlast, he,
          List.append_assoc]

theorem digits?_zeros_append (zeros n : Nat) :
    digits? 0 (List.replicate zeros '0' ++ Nat.toDigits 10 n) = some n := by
  refine digits?_eq_some.mpr ⟨fun c hc => ?_, ?_⟩
  case refine_1 =>
    cases List.mem_append.mp hc
    case inl hc => exact List.eq_of_mem_replicate hc ▸ rfl
    case inr hc => exact Nat.isDigit_of_mem_toDigits (by decide) (by decide) hc
  case refine_2 => simp [Nat.ofDigitChars_append]

theorem isDigit_of_mem {zeros : Nat} (hc : c ∈ List.replicate zeros '0' ++ Nat.toDigits 10 n) : c.isDigit :=
  (digits?_eq_some.mp (digits?_zeros_append zeros n)).left c hc

-- What is behind the sign.
theorem unsigned_eq_some :
    (if digits.isEmpty then none else (digits? 0 digits).filter (· < 0x100000000)) = some n ↔
      (∃ zeros, digits = List.replicate zeros '0' ++ Nat.toDigits 10 n) ∧ n < 2 ^ 32 := by
  by_cases hn : digits = []
  case pos => simp [hn]
  case neg =>
    simp only [List.isEmpty_iff, hn, if_false, Option.filter_eq_some_iff, decide_eq_true_eq]
    refine and_congr_left fun _ => ⟨fun h => ?_, ?_⟩
    case refine_1 =>
      obtain ⟨hd, rfl⟩ := digits?_eq_some.mp h
      exact eq_zeros_append hd hn
    case refine_2 =>
      rintro ⟨zeros, rfl⟩
      exact digits?_zeros_append zeros n

theorem word32?_eq_some : word32? text = some n ↔ IsNumeral n text ∧ n < 2 ^ 32 := by
  unfold word32?
  split
  case h_1 rest =>
    refine unsigned_eq_some.trans <| and_congr_left fun _ => ⟨?_, ?_⟩
    case refine_1 =>
      rintro ⟨zeros, rfl⟩
      exact ⟨['+'], zeros, .inr rfl, rfl⟩
    case refine_2 =>
      rintro ⟨_, zeros, rfl | rfl, he⟩
      case inl => exact absurd (isDigit_of_mem (he ▸ List.mem_cons_self)) (by decide)
      case inr => exact ⟨zeros, List.tail_eq_of_cons_eq he⟩
  case h_2 hn =>
    refine unsigned_eq_some.trans <| and_congr_left fun _ => ⟨?_, ?_⟩
    case refine_1 =>
      rintro ⟨zeros, rfl⟩
      exact ⟨[], zeros, .inl rfl, rfl⟩
    case refine_2 =>
      rintro ⟨_, zeros, rfl | rfl, rfl⟩
      case inl => exact ⟨zeros, rfl⟩
      case inr => exact absurd rfl (hn _)

theorem isNumeral_ofDigitChars (hd : ∀ c ∈ digits, c.isDigit) (hn : digits ≠ []) :
    IsNumeral (Nat.ofDigitChars 10 digits 0) digits := by
  obtain ⟨zeros, he⟩ := eq_zeros_append hd hn
  exact ⟨[], zeros, .inl rfl, he⟩

namespace IsNumeral

theorem mem (h : IsNumeral n text) (hc : c ∈ text) : c = '+' ∨ c.isDigit := by
  obtain ⟨sign, zeros, hs, rfl⟩ := h
  cases List.mem_append.mp hc
  case inr hc => exact .inr (isDigit_of_mem hc)
  case inl hc =>
    obtain rfl | rfl := hs
    case inl => cases hc
    case inr => exact .inl (List.mem_singleton.mp hc)

theorem ne_nil (h : IsNumeral n text) : text ≠ [] := by
  obtain ⟨sign, zeros, _, rfl⟩ := h
  simp

theorem ofDigitChars_eq (h : IsNumeral n digits) (hd : ∀ c ∈ digits, c.isDigit) :
    Nat.ofDigitChars 10 digits 0 = n := by
  obtain ⟨sign, zeros, rfl | rfl, rfl⟩ := h
  case inl => exact (digits?_eq_some.mp (digits?_zeros_append zeros n)).right
  case inr => exact absurd (hd '+' List.mem_cons_self) (by decide)

end IsNumeral

-- Digits are only refused where they say too much.
theorem word32?_eq_none (hd : ∀ c ∈ digits, c.isDigit) (hn : digits ≠ []) :
    word32? digits = none ↔ 2 ^ 32 ≤ Nat.ofDigitChars 10 digits 0 := by
  rw [Option.eq_none_iff_forall_ne_some]
  constructor
  case mp =>
    intro h
    by_contra hlt
    exact h _ <| word32?_eq_some.mpr ⟨isNumeral_ofDigitChars hd hn, not_le.mp hlt⟩
  case mpr =>
    intro hle n h
    obtain ⟨h, hlt⟩ := word32?_eq_some.mp h
    exact absurd hlt <| not_lt.mpr <| h.ofDigitChars_eq hd ▸ hle

end EbpfManager.Text
