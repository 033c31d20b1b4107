namespace EbpfManager

-- A finite run of octets: a file, a section, a map key, a map value, bytecode.
abbrev Bytes := List UInt8

namespace Bytes

-- The number whose base-256 digits are `bs`, least significant first.
def toNat : Bytes → Nat
  | [] => 0
  | b :: bs => b.toNat + 256 * toNat bs

-- The number of values that `width` octets can have; every number they spell is below it.
def limit : Nat → Nat
  | 0 => 1
  | width + 1 => 256 * limit width

-- The lowest `width` base-256 digits of `n`, least significant first.
def ofNat : Nat → Nat → Bytes
  | 0, _ => []
  | width + 1, n => UInt8.ofNat n :: ofNat width (n / 256)

@[simp] theorem length_ofNat (width n : Nat) : (ofNat width n).length = width := by
  induction width generalizing n with
  | zero => rfl
  | succ width ih => simp [ofNat, ih]

theorem toNat_ofNat (width n : Nat) : toNat (ofNat width n) = n % limit width := by
  induction width generalizing n with
  | zero => simp [ofNat, toNat, limit, Nat.mod_one]
  | succ width ih =>
    rw [ofNat, toNat, ih, limit, Nat.mod_mul]
    simp

theorem toNat_lt (bs : Bytes) : toNat bs < limit bs.length := by
  induction bs with
  | nil => simp [toNat, limit]
  | cons b bs ih =>
    have := b.toNat_lt
    simp only [toNat, List.length_cons, limit]
    omega

theorem ofNat_toNat (bs : Bytes) : ofNat bs.length (toNat bs) = bs := by
  induction bs with
  | nil => rfl
  | cons b bs ih =>
    have hb := b.toNat_lt
    simp only [toNat, List.length_cons, ofNat]
    rw [show (b.toNat + 256 * toNat bs) / 256 = toNat bs by omega, ih]
    congr 1
    apply UInt8.toNat_inj.1
    simp only [UInt8.toNat_ofNat']
    omega

-- The two's complement of `value` in `width` octets, least significant first.
def ofInt (width : Nat) (value : Int) : Bytes :=
  ofNat width (value % limit width).toNat

-- The signed number whose two's complement is `bs`, least significant first.
def toInt (bs : Bytes) : Int :=
  Int.bmod (toNat bs) (limit bs.length)

@[simp] theorem length_ofInt (width : Nat) (value : Int) : (ofInt width value).length = width :=
  length_ofNat ..

-- The `count` octets from position `start` on, if they all lie inside `bs`.
def slice? (bs : Bytes) (start count : Nat) : Option Bytes :=
  if start + count ≤ bs.length then some ((bs.drop start).take count) else none

theorem slice?_eq_some {bs piece : Bytes} {start count : Nat} :
    bs.slice? start count = some piece ↔
      start + count ≤ bs.length ∧ piece = (bs.drop start).take count := by
  unfold slice?
  split <;> grind

-- `bs` filled up with zeros to `width` octets; nothing if it is longer than that.
def padTo? (bs : Bytes) (width : Nat) : Option Bytes :=
  if bs.length ≤ width then some (bs ++ List.replicate (width - bs.length) 0) else none

-- The first `count` pieces of `size` octets each.
def pieces (size : Nat) : Nat → Bytes → List Bytes
  | 0, _ => []
  | count + 1, bs => bs.take size :: pieces size count (bs.drop size)

-- `bs` cut into pieces of `size` octets; a shorter rest is left out.
def chunks (size : Nat) (bs : Bytes) : List Bytes :=
  pieces size (bs.length / size) bs

-- `bs` with `piece` written over it from position `start` on.
def patch (bs : Bytes) (start : Nat) (piece : Bytes) : Bytes :=
  bs.take start ++ piece ++ bs.drop (start + piece.length)

-- `bs` with as much of `piece` as fits written over its beginning.
def overlay (bs piece : Bytes) : Bytes :=
  piece.take bs.length ++ bs.drop piece.length

-- What stands before the first zero octet, or all of `bs` if there is none.
def beforeZero (bs : Bytes) : Bytes :=
  bs.takeWhile (· ≠ 0)

-- What stands before the first zero octet, provided there is one.
def terminated? (bs : Bytes) : Option Bytes :=
  if 0 ∈ bs then some bs.beforeZero else none

end Bytes

-- Which end of a number is stored first.
inductive ByteOrder
  | little
  | big
  deriving DecidableEq, Repr

-- The number that `bs` spells in this order.
def ByteOrder.toNat : ByteOrder → Bytes → Nat
  | little, bs => Bytes.toNat bs
  | big, bs => Bytes.toNat bs.reverse

-- The signed number that `bs` spells in this order.
def ByteOrder.toInt : ByteOrder → Bytes → Int
  | little, bs => Bytes.toInt bs
  | big, bs => Bytes.toInt bs.reverse

end EbpfManager
