import EbpfManager.Proofs.Texts

namespace EbpfManager.Text

section Steps

variable {b : Nat} (hb : b < 256) (rest : Bytes)

include hb

theorem pieces_fresh : pieces .fresh (UInt8.ofNat b :: rest) = (start b).1 ++ pieces (start b).2 rest := by
  simp [pieces, step, Nat.mod_eq_of_lt hb]

theorem pieces_inside_succ {more low high bits : Nat} (h : low ≤ b ∧ b ≤ high) :
    pieces (.inside (more + 1) low high bits) (UInt8.ofNat b :: rest) =
      pieces (.inside more 0x80 0xBF (bits * 64 + (b - 0x80))) rest := by
  simp [pieces, step, Nat.mod_eq_of_lt hb, h]

-- The last octet completes the character.
theorem pieces_inside_zero {low high bits : Nat} {c : Char} (h : low ≤ b ∧ b ≤ high)
    (hc : bits * 64 + (b - 0x80) = c.toNat) :
    pieces (.inside 0 low high bits) (UInt8.ofNat b :: rest) = some c :: pieces .fresh rest := by
  simp [pieces, step, Nat.mod_eq_of_lt hb, h, hc]

end Steps

-- What the first octet of a character says. The second octet is bounded where the first one is the least or
-- the greatest, or could lead to a surrogate.
section Starts

variable {n : Nat}

theorem start_two (hn : 0x80 ≤ n ∧ n < 0x800) : start (0xC0 + n / 64) = ([], .inside 0 0x80 0xBF (n / 64)) := by
  unfold start
  rw [if_neg (by omega), if_pos (by omega), Nat.add_sub_cancel_left]

theorem start_three (hv : n.isValidChar) (hn : 0x800 ≤ n ∧ n < 0x10000) : ∃ low high,
    start (0xE0 + n / 4096) = ([], .inside 1 low high (n / 4096)) ∧
      low ≤ 0x80 + n / 64 % 64 ∧ 0x80 + n / 64 % 64 ≤ high := by
  unfold Nat.isValidChar at hv
  unfold start
  rw [if_neg (by omega), if_neg (by omega)]
  split
  case isTrue h => exact ⟨_, _, by rw [show n / 4096 = 0 by omega], by omega, by omega⟩
  split
  case isTrue h => exact ⟨_, _, by rw [show n / 4096 = 0xD by omega], by omega, by omega⟩
  rw [if_pos (by omega)]
  exact ⟨_, _, by rw [Nat.add_sub_cancel_left], by omega, by omega⟩

theorem start_four (hn : 0x10000 ≤ n ∧ n < 0x110000) : ∃ low high,
    start (0xF0 + n / 262144) = ([], .inside 2 low high (n / 262144)) ∧
      low ≤ 0x80 + n / 4096 % 64 ∧ 0x80 + n / 4096 % 64 ≤ high := by
  unfold start
  rw [if_neg (by omega), if_neg (by omega), if_neg (by omega), if_neg (by omega), if_neg (by omega)]
  split
  case isTrue h => exact ⟨_, _, by rw [show n / 262144 = 0 by omega], by omega, by omega⟩
  split
  case isTrue h => exact ⟨_, _, by rw [Nat.add_sub_cancel_left], by omega, by omega⟩
  rw [if_pos (by omega)]
  exact ⟨_, _, by rw [show n / 262144 = 4 by omega], by omega, by omega⟩

end Starts

-- One case for each number of octets.
theorem pieces_encodeChar (c : Char) (rest : Bytes) :
    pieces .fresh (encodeChar c ++ rest) = some c :: pieces .fresh rest := by
  have hv : c.toNat.isValidChar := c.valid
  have hlt : c.toNat < 0x110000 := by
    unfold Nat.isValidChar at hv
    omega
  generalize hn : c.toNat = n at hv hlt
  unfold encodeChar
  simp only [hn]
  split
  case isTrue h1 =>
    have hs : start n = ([some c], .fresh) := by rw [start, if_pos h1, ← hn, Char.ofNat_toNat]
    simp only [List.map_cons, List.map_nil, List.cons_append, List.nil_append]
    rw [pieces_fresh (by omega), hs]
    rfl
  split
  case isTrue h1 h2 =>
    simp only [List.map_cons, List.map_nil, List.cons_append, List.nil_append]
    rw [pieces_fresh (by omega), start_two (by omega), List.nil_append,
      pieces_inside_zero (c := c) (by omega) rest (by omega) (by omega)]
  split
  case isTrue h1 h2 h3 =>
    obtain ⟨low, high, hs, hl⟩ := start_three hv (by omega)
    simp only [List.map_cons, List.map_nil, List.cons_append, List.nil_append]
    rw [pieces_fresh (by omega), hs, List.nil_append, pieces_inside_succ (by omega) _ hl,
      pieces_inside_zero (c := c) (by omega) rest (by omega) (by omega)]
  case isFalse h1 h2 h3 =>
    obtain ⟨low, high, hs, hl⟩ := start_four (n := n) (by omega)
    simp only [List.map_cons, List.map_nil, List.cons_append, List.nil_append]
    rw [pieces_fresh (by omega), hs, List.nil_append, pieces_inside_succ (by omega) _ hl,
      pieces_inside_succ (by omega) _ (by omega),
      pieces_inside_zero (c := c) (by omega) rest (by omega) (by omega)]

theorem pieces_encode (text : String) : pieces .fresh (encode text) = text.toList.map some := by
  rw [encode]
  induction text.toList
  case nil          => rfl
  case cons c cs ih => rw [List.flatMap_cons, pieces_encodeChar, ih, List.map_cons]

theorem decodeLossy_encode (text : String) : decodeLossy (encode text) = text := by
  have hid : (fun piece : Option Char => piece.getD '\uFFFD') ∘ some = id := rfl
  rw [decodeLossy, pieces_encode, List.map_map, hid, List.map_id, String.ofList_toList]

theorem decode?_encode (text : String) : decode? (encode text) = some text := by
  have hm (cs : List Char) : (cs.map some).mapM id = some cs := by
    induction cs
    case nil          => rfl
    case cons c cs ih => simp [ih]
  rw [decode?, pieces_encode, hm, Option.map_some, String.ofList_toList]

theorem encode_injective {text text' : String} (h : encode text = encode text') : text = text' := by
  have hd := congrArg decode? h
  rwa [decode?_encode, decode?_encode, Option.some_inj] at hd

theorem zero_not_mem_encodeChar {c : Char} (h : c ≠ '\x00') : 0 ∉ encodeChar c := by
  have hn : c.toNat ≠ 0 := fun he => h (Char.toNat_inj.mp he)
  have hv : c.toNat < 0x110000 := by
    have hv : c.toNat.isValidChar := c.valid
    unfold Nat.isValidChar at hv
    omega
  intro hz
  obtain ⟨k, hk, he⟩ := List.mem_map.mp hz
  have hm : k % 256 = 0 := by simpa using congrArg UInt8.toNat he
  revert hk
  split
  case isTrue => simp; omega
  split
  case isTrue => simp; omega
  split
  case isTrue  => simp; omega
  case isFalse => simp; omega

theorem zero_not_mem_encode {text : String} (h : '\x00' ∉ text.toList) : 0 ∉ encode text := by
  intro hz
  obtain ⟨c, hc, hz⟩ := List.mem_flatMap.mp hz
  exact zero_not_mem_encodeChar (fun he => h (he ▸ hc)) hz

end EbpfManager.Text
