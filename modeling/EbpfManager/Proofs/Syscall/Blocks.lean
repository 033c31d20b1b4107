import EbpfManager.Proofs.Integers
import EbpfManager.Syscall.ReportBlock
import Mathlib.Data.Nat.Digits.Defs

namespace EbpfManager

namespace Bytes

variable {bs piece : Bytes} {start i : Nat}

theorem getElem?_overlay (h : i < bs.length) :
    (bs.overlay piece)[i]? = if i < piece.length then piece[i]? else bs[i]? := by
  rw [overlay, List.getElem?_append, List.length_take, List.getElem?_take, List.getElem?_drop]
  split
  case isTrue hi => simp only [if_true, Nat.lt_of_lt_of_le hi (Nat.min_le_right ..)]
  case isFalse hi =>
    have hp : piece.length ≤ i := by omega
    rw [if_neg (Nat.not_lt.mpr hp), Nat.min_eq_right (by omega), Nat.add_sub_cancel' hp]

theorem length_overlay : (bs.overlay piece).length = bs.length := by
  rw [overlay, List.length_append, List.length_take, List.length_drop]
  omega

theorem getElem?_patch_of_lt (hs : start ≤ bs.length) (h : i < start) : (bs.patch start piece)[i]? = bs[i]? := by
  rw [patch, List.append_assoc, List.getElem?_append_left (by rw [List.length_take]; omega), List.getElem?_take_of_lt h]

theorem getElem?_patch_of_le (hs : start ≤ bs.length) (h : start + piece.length ≤ i) :
    (bs.patch start piece)[i]? = bs[i]? := by
  have hl : (bs.take start ++ piece).length = start + piece.length := by
    rw [List.length_append, List.length_take, Nat.min_eq_left hs]
  rw [patch, List.getElem?_append_right (hl ▸ h), hl, List.getElem?_drop, Nat.add_sub_cancel' h]

theorem toNat_eq_ofDigits (bs : Bytes) : toNat bs = Nat.ofDigits 256 (bs.map UInt8.toNat) := by
  induction bs
  case nil     => rfl
  case cons hi => rw [toNat, hi, List.map_cons, Nat.ofDigits_cons]

end Bytes

namespace Syscall

variable {block block' piece : Bytes} {start width n : Nat}

theorem length_word : (word n).length = 4 :=
  Bytes.length_ofNat ..

theorem toNat_word : Bytes.toNat (word n) = n % 2 ^ 32 := by
  rw [word, Bytes.toNat_ofNat, Bytes.limit_eq_pow]

theorem field_of_eq (before after : Bytes) (h : block = before ++ piece ++ after) (hs : start = before.length)
    (hw : width = piece.length) : field block start width = piece := by
  rw [field, h, hs, hw, List.append_assoc, List.drop_left, List.take_left]

theorem number_of_eq (before after : Bytes) (h : block = before ++ word n ++ after) (hs : start = before.length) :
    number block start 4 = n % 2 ^ 32 := by
  rw [number, field_of_eq before after h hs length_word.symm, toNat_word]

theorem field_congr (h : ∀ i, start ≤ i → i < start + width → block[i]? = block'[i]?) :
    field block start width = field block' start width := by
  refine List.ext_getElem? fun i => ?_
  rw [field, field, List.getElem?_take, List.getElem?_take, List.getElem?_drop, List.getElem?_drop]
  split
  case isTrue hi => exact h (start + i) (by omega) (by omega)
  case isFalse   => rfl

theorem number_lt (block : Bytes) (start width : Nat) : number block start width < 2 ^ (8 * width) := by
  rw [← Bytes.limit_eq_pow]
  refine (Bytes.toNat_lt _).trans_le ?_
  rw [Bytes.limit_eq_pow, Bytes.limit_eq_pow]
  exact Nat.pow_le_pow_right (by decide) (Nat.mul_le_mul_left 8 (List.length_take_le ..))

end Syscall

end EbpfManager
