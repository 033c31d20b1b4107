import EbpfManager.Encoding
import EbpfManager.Proofs.Results
import Mathlib.Algebra.Order.Ring.Int
import Mathlib.Tactic.Ring

namespace EbpfManager

namespace Bytes

variable {width : Nat} {v : Int}

theorem limit_eq_pow (width : Nat) : limit width = 2 ^ (8 * width) := by
  induction width
  case zero          => rfl
  case succ width ih => rw [limit, ih, Nat.mul_succ, Nat.pow_add, Nat.mul_comm]

theorem limit_pos (width : Nat) : 0 < limit width := by
  rw [limit_eq_pow]
  exact Nat.two_pow_pos _

theorem emod_limit_nonneg (width : Nat) (v : Int) : 0 ≤ v % limit width := by
  have := limit_pos width
  exact Int.emod_nonneg _ (by omega)

theorem toNat_ofInt (width : Nat) (v : Int) : toNat (ofInt width v) = (v % limit width).toNat := by
  have hl := limit_pos width
  have hlt : v % limit width < limit width := Int.emod_lt_of_pos _ (by omega)
  rw [ofInt, toNat_ofNat, Nat.mod_eq_of_lt (by omega)]

theorem toInt_ofInt (width : Nat) (v : Int) : toInt (ofInt width v) = v.bmod (limit width) := by
  rw [toInt, length_ofInt, toNat_ofInt, Int.toNat_of_nonneg (emod_limit_nonneg ..), Int.emod_bmod]

theorem ofInt_toInt (bs : Bytes) : ofInt bs.length (toInt bs) = bs := by
  have h : (toInt bs % limit bs.length).toNat = toNat bs := by
    have hlt := toNat_lt bs
    rw [toInt, Int.bmod_emod, Int.emod_eq_of_lt (by omega) (by omega)]
    rfl
  rw [ofInt, h, ofNat_toNat]

theorem ofInt_toNat (bs : Bytes) : ofInt bs.length (toNat bs) = bs := by
  have hlt := toNat_lt bs
  rw [ofInt, Int.emod_eq_of_lt (by omega) (by omega), Int.toNat_natCast, ofNat_toNat]

theorem emod_limit_lt (width : Nat) (v : Int) : v % limit width < limit width := by
  have := limit_pos width
  exact Int.emod_lt_of_pos _ (by omega)

-- A number below half of the limit is what is read of it.
theorem bmod_limit (hl : -(limit width / 2 : Nat) ≤ v) (hu : v < (limit width / 2 : Nat)) :
    v.bmod (limit width) = v := by
  have hl := limit_pos width
  exact Int.bmod_eq_of_le (by omega) (by omega)

-- Octets are the two's complement of what is read of them, and of no other integer that has one.
theorem eq_ofInt_iff {bs : Bytes} (h : bs.length = width) (hl : -(limit width / 2 : Nat) ≤ v)
    (hu : v < (limit width / 2 : Nat)) : bs = ofInt width v ↔ toInt bs = v := by
  constructor
  case mp  => rintro rfl; rw [toInt_ofInt, bmod_limit hl hu]
  case mpr => rintro rfl; rw [← h, ofInt_toInt]

-- The last digit of a number to base 256, and the number that the other digits spell.
theorem emod_limit_succ (width : Nat) (v : Int) :
    v % limit (width + 1) = v % 256 + 256 * (v / 256 % limit width) := by
  have hl : (limit (width + 1) : Int) = 256 * limit width := by simp [limit]
  have hq : v / (256 * limit width) = v / 256 / limit width := (Int.ediv_ediv_of_nonneg (by decide)).symm
  rw [hl, Int.emod_def v (256 * limit width), hq, Int.emod_def (v / 256) (limit width), Int.mul_assoc]
  omega

theorem ofInt_succ (width : Nat) (v : Int) :
    ofInt (width + 1) v = UInt8.ofNat (v % 256).toNat :: ofInt width (v / 256) := by
  have hr := emod_limit_nonneg width (v / 256)
  rw [ofInt, emod_limit_succ, ofNat, ofInt]
  congr 1
  case e_head =>
    apply UInt8.toNat_inj.mp
    simp only [UInt8.toNat_ofNat']
    omega
  case e_tail =>
    congr 1
    omega

-- By induction on the position: the first digit is the remainder, and the digits behind it are those of
-- the quotient.
theorem getElem?_ofInt {i : Nat} (h : i < width) :
    (ofInt width v)[i]? = some (UInt8.ofNat (v / 256 ^ i % 256).toNat) := by
  obtain ⟨width, rfl⟩ := Nat.exists_eq_succ_of_ne_zero (Nat.ne_zero_of_lt h)
  induction i generalizing width v
  case zero => simp [ofInt_succ]
  case succ i ih =>
    obtain ⟨width, rfl⟩ := Nat.exists_eq_succ_of_ne_zero (by omega : width ≠ 0)
    rw [ofInt_succ, List.getElem?_cons_succ, ih _ (by omega), pow_succ', Int.ediv_ediv_of_nonneg (by decide)]

theorem limit_wide (h : 8 < width) : 2 ^ 72 ≤ limit width := by
  rw [limit_eq_pow]
  exact Nat.pow_le_pow_right (by decide) (by omega)

theorem toNat_append_zeros (bs : Bytes) (count : Nat) : toNat (bs ++ List.replicate count 0) = toNat bs := by
  have hz : toNat (List.replicate count 0) = 0 := by
    induction count
    case zero          => rfl
    case succ count ih => rw [List.replicate_succ, toNat, ih]; rfl
  induction bs
  case nil          => exact hz
  case cons b bs ih => rw [List.cons_append, toNat, ih, toNat]

end Bytes

namespace Datum

variable {width : Nat} {v : Int} {bytes : Bytes}

theorem IsIntegerWidth.pos (hw : IsIntegerWidth width) : 0 < width := by
  unfold IsIntegerWidth at hw
  omega

theorem fits_iff (h : 0 < width) : Fits v width ↔ -2 ^ (8 * width - 1) ≤ v ∧ v < 2 ^ (8 * width) := by
  obtain ⟨n, hn⟩ : ∃ n, 8 * width = n + 1 := ⟨8 * width - 1, by omega⟩
  unfold Fits
  rw [Bytes.limit_eq_pow, hn, Nat.pow_succ, Nat.mul_div_cancel _ (by decide), pow_succ]
  simp

theorem encode_integer (hw : IsIntegerWidth width) (v : Int) :
    (integer v).encode width = if Fits v width then .ok (Bytes.ofInt width v) else .error (.overflow v width) := by
  rw [encode, encodeInteger, if_pos hw]

theorem encode_integer_eq_ok (hw : IsIntegerWidth width) :
    (integer v).encode width = .ok bytes ↔ Fits v width ∧ bytes = Bytes.ofInt width v := by
  rw [encode_integer hw]
  split <;> simp_all [eq_comm]

-- What there is to say of the integers that are written to a field of so many octets and read there.
structure Corresponds (width : Nat) : Prop where
  written_iff {v : Int} : (∃ bytes, (integer v).encode width = .ok bytes) ↔
    -2 ^ (8 * width - 1) ≤ v ∧ v < 2 ^ (8 * width)
  overflow {v : Int} : ¬(-2 ^ (8 * width - 1) ≤ v ∧ v < 2 ^ (8 * width)) →
    (integer v).encode width = .error (.overflow v width)
  -- The octets are the digits of the two's complement, the least significant one first.
  length {v : Int} {bytes : Bytes} : (integer v).encode width = .ok bytes → bytes.length = width
  digit {v : Int} {bytes : Bytes} {i : Nat} : (integer v).encode width = .ok bytes → i < width →
    bytes[i]? = some (UInt8.ofNat (v / 256 ^ i % 256).toNat)
  read {v : Int} {bytes : Bytes} : (integer v).encode width = .ok bytes →
    bytes.decodeUnsigned = .ok (v % 2 ^ (8 * width)).toNat ∧ (0 ≤ v → bytes.decodeUnsigned = .ok v.toNat)
  -- All octets can be read, and are written for what is read.
  rewritten {bytes : Bytes} : bytes.length = width →
    ∃ n, bytes.decodeUnsigned = .ok n ∧ (integer n).encode width = .ok bytes

theorem decodeUnsigned_of_encode (hw : IsIntegerWidth width) (he : (integer v).encode width = .ok bytes) :
    bytes.decodeUnsigned = .ok (v % 2 ^ (8 * width)).toNat := by
  obtain ⟨_, rfl⟩ := (encode_integer_eq_ok hw).mp he
  have hl : (Bytes.limit width : Int) = 2 ^ (8 * width) := by simp [Bytes.limit_eq_pow]
  rw [Bytes.decodeUnsigned, Bytes.length_ofInt, if_pos hw, Bytes.toNat_ofInt, hl]

theorem decodeUnsigned_of_encode_nonneg (hw : IsIntegerWidth width) (h0 : 0 ≤ v)
    (he : (integer v).encode width = .ok bytes) : bytes.decodeUnsigned = .ok v.toNat := by
  have hf := (fits_iff hw.pos).mp ((encode_integer_eq_ok hw).mp he).left
  rw [decodeUnsigned_of_encode hw he, Int.emod_eq_of_lt h0 hf.right]

theorem corresponds (hw : IsIntegerWidth width) : Corresponds width where
  written_iff {v} := by
    rw [← fits_iff hw.pos]
    simp [encode_integer_eq_ok hw]
  overflow hn   := by rw [encode_integer hw, if_neg fun hf => hn ((fits_iff hw.pos).mp hf)]
  length        := length_of_encode
  digit he hi   := by
    obtain ⟨_, rfl⟩ := (encode_integer_eq_ok hw).mp he
    exact Bytes.getElem?_ofInt hi
  read he       := ⟨decodeUnsigned_of_encode hw he, (decodeUnsigned_of_encode_nonneg hw · he)⟩
  rewritten {bytes} hl := by
    subst hl
    have hlt := Bytes.toNat_lt bytes
    have hf : Fits (Bytes.toNat bytes) bytes.length := by
      unfold Fits
      omega
    refine ⟨Bytes.toNat bytes, if_pos hw, (encode_integer_eq_ok hw).mpr ⟨hf, ?_⟩⟩
    rw [Bytes.ofInt_toNat]

-- The integers of 8, 16, 32 and 64 bits, with a sign and without one.
def IsMachineInteger (v : Int) : Prop :=
  ∃ bits ∈ [8, 16, 32, 64], 0 ≤ v ∧ v < 2 ^ bits ∨ -2 ^ (bits - 1) ≤ v ∧ v < 2 ^ (bits - 1)

theorem isMachineInteger_iff : IsMachineInteger v ↔ Fits v 8 := by
  have h : Fits v 8 ↔ -9223372036854775808 ≤ v ∧ v < 18446744073709551616 := fits_iff (by decide)
  simp only [h, IsMachineInteger, List.mem_cons, List.not_mem_nil, or_false, exists_eq_or_imp, exists_eq_left]
  norm_num
  omega

theorem encode_integer_of_wide (hf : Fits v 8) (hw : 8 < width) :
    (integer v).encode width = .ok (Bytes.ofInt 8 v ++ List.replicate (width - 8) 0) := by
  have hn : ¬IsIntegerWidth width := by
    unfold IsIntegerWidth
    omega
  rw [encode, encodeInteger, if_neg hn, if_pos hw, if_pos hf]

theorem toInt_of_wide (hf : Fits v 8) (hw : 8 < width) (hl : bytes.length = width)
    (hb : bytes = Bytes.ofInt 8 v ++ List.replicate (width - 8) 0) :
    bytes.toInt = if 0 ≤ v then v else v + 2 ^ 64 := by
  have h8 : Bytes.limit 8 = 18446744073709551616 := rfl
  have hwide := Bytes.limit_wide hw
  have h0 := Bytes.emod_limit_nonneg 8 v
  have hlt := Bytes.emod_limit_lt 8 v
  have hnat : (Bytes.toNat bytes : Int) = v % Bytes.limit 8 := by
    rw [hb, Bytes.toNat_append_zeros, Bytes.toNat_ofInt, Int.toNat_of_nonneg h0]
  rw [Bytes.toInt, hl, hnat, Bytes.bmod_limit (by omega) (by omega)]
  rw [Fits, h8] at hf
  rw [h8]
  split <;> omega

-- A field of more than 8 octets begins with the two's complement in 8 octets, and zeros follow. It holds
-- the integer just if that has no sign. Otherwise the sign is lost, and what the field holds is the number
-- without a sign that has the same two's complement in 8 octets.
theorem encode_wide (hv : IsMachineInteger v) (hw : 8 < width) :
    ∃ narrow bytes, (integer v).encode 8 = .ok narrow ∧ (integer v).encode width = .ok bytes ∧
      bytes.length = width ∧ bytes = narrow ++ List.replicate (width - 8) 0 ∧
      bytes.toInt = (if 0 ≤ v then v else v + 2 ^ 64) ∧
      (bytes.toInt = v ↔ 0 ≤ v) ∧ (bytes = Bytes.ofInt width v ↔ 0 ≤ v) := by
  have hf := isMachineInteger_iff.mp hv
  obtain ⟨bytes, hb⟩ : ∃ bytes, bytes = Bytes.ofInt 8 v ++ List.replicate (width - 8) 0 := ⟨_, rfl⟩
  have he : (integer v).encode width = .ok bytes := hb ▸ encode_integer_of_wide hf hw
  have hlen := length_of_encode he
  have hint := toInt_of_wide hf hw hlen hb
  have hiff : bytes.toInt = v ↔ 0 ≤ v := by
    rw [hint]
    split <;> omega
  have hofInt : bytes = Bytes.ofInt width v ↔ bytes.toInt = v := by
    have h8 : Bytes.limit 8 = 18446744073709551616 := rfl
    have hwide := Bytes.limit_wide hw
    rw [Fits, h8] at hf
    exact Bytes.eq_ofInt_iff hlen (by omega) (by omega)
  exact ⟨_, bytes, (encode_integer_eq_ok (by decide)).mpr ⟨hf, rfl⟩, he, hlen, hb, hint, hiff,
    hofInt.trans hiff⟩

theorem encode_wide_of_negative : IsMachineInteger (-1) ∧ (8 < 16) ∧
    (integer (-1)).encode 16 = .ok [255, 255, 255, 255, 255, 255, 255, 255, 0, 0, 0, 0, 0, 0, 0, 0] := by
  have hm : IsMachineInteger (-1) := ⟨8, by decide⟩
  have hw : 8 < 16 := by decide
  obtain ⟨narrow, bytes, hn, hw, _, hb, _⟩ := encode_wide hm hw
  cases hn
  rw [hw, hb]
  exact ⟨hm, by decide, rfl⟩

theorem negative_loses_sign : ¬∀ (v : Int) (width : Nat), IsMachineInteger v → 8 < width →
    ∃ bytes, (integer v).encode width = .ok bytes ∧ bytes.length = width ∧ bytes.toInt = v := by
  intro h
  obtain ⟨_, he, _, hi⟩ := h (-1) 16 ⟨8, by decide⟩ (by decide)
  cases he
  revert hi
  decide

end Datum

end EbpfManager
