import EbpfManager.Text.Utf8

namespace EbpfManager

-- Something to be used as a key or a value of a map.
inductive Datum
  | integer (value : Int)
  | octets (content : Bytes)
  | text (content : String)
  | ipv4 (a b c d : UInt8)
  deriving DecidableEq, Repr

-- Why a datum has no form of a width, or octets no value as a number.
inductive EncodeError
  | tooLong (length width : Nat)
  | overflow (value : Int) (width : Nat)
  | unsupportedWidth (width : Nat)
  deriving DecidableEq, Repr

def EncodeError.message : EncodeError → String
  | tooLong length width => s!"{length} bytes do not fit into {width} bytes"
  | overflow value width => s!"{value} does not fit into {width} bytes"
  | unsupportedWidth width => s!"cannot decode a {width}-byte value as an integer"

namespace Datum

-- The widths at which integers are stored exactly.
def IsIntegerWidth (width : Nat) : Prop :=
  width = 1 ∨ width = 2 ∨ width = 4 ∨ width = 8

instance (width : Nat) : Decidable (IsIntegerWidth width) :=
  inferInstanceAs (Decidable (_ ∨ _))

-- The integers that `width` octets hold, read either as signed or as unsigned.
def Fits (value : Int) (width : Nat) : Prop :=
  -(Bytes.limit width / 2 : Nat) ≤ value ∧ value < Bytes.limit width

instance (value : Int) (width : Nat) : Decidable (Fits value width) :=
  inferInstanceAs (Decidable (_ ∧ _))

-- The form of an integer. In fields wider than 8 octets it takes the first 8 and zeros follow.
def encodeInteger (value : Int) (width : Nat) : Except EncodeError Bytes :=
  if IsIntegerWidth width then
    if Fits value width then .ok (Bytes.ofInt width value) else .error (.overflow value width)
  else if 8 < width then
    if Fits value 8 then .ok (Bytes.ofInt 8 value ++ List.replicate (width - 8) 0)
    else .error (.overflow value width)
  else .error (.unsupportedWidth width)

-- The form of something that is octets already.
def encodeOctets (content : Bytes) (width : Nat) : Except EncodeError Bytes :=
  match content.padTo? width with
  | some bytes => .ok bytes
  | none => .error (.tooLong content.length width)

-- The form of a datum in a field of `width` octets: integers in two's complement, least significant
-- octet first, and everything else from the left with zeros behind it.
def encode : Datum → Nat → Except EncodeError Bytes
  | integer value, width => encodeInteger value width
  | octets content, width => encodeOctets content width
  | text content, width => encodeOctets (Text.encode content) width
  | ipv4 a b c d, width => encodeOctets [a, b, c, d] width

-- The length of a datum that is raw octets: by it a value for all processors at once is told from
-- a value for each of them.
def octetLength? : Datum → Option Nat
  | octets content => some content.length
  | _ => none

theorem length_of_encode {datum : Datum} {width : Nat} {bytes : Bytes}
    (h : datum.encode width = .ok bytes) : bytes.length = width := by
  have octets_case {content : Bytes} (h : encodeOctets content width = .ok bytes) :
      bytes.length = width := by
    unfold encodeOctets Bytes.padTo? at h
    split at h <;> grind
  cases datum with
  | integer value =>
    simp only [encode, encodeInteger] at h
    split at h
    · split at h <;> grind [Bytes.length_ofInt]
    · split at h
      · split at h <;> grind [Bytes.length_ofInt]
      · cases h
  | octets content => exact octets_case h
  | text content => exact octets_case h
  | ipv4 a b c d => exact octets_case h

end Datum

namespace Bytes

-- The unsigned number in a field of 1, 2, 4 or 8 octets.
def decodeUnsigned (bs : Bytes) : Except EncodeError Nat :=
  if Datum.IsIntegerWidth bs.length then .ok (toNat bs) else .error (.unsupportedWidth bs.length)

-- The array index in a key: a number below 2^32.
def decodeIndex? (bs : Bytes) : Option Nat :=
  match bs.decodeUnsigned with
  | .ok n => if n < limit 4 then some n else none
  | .error _ => none

end Bytes

end EbpfManager
