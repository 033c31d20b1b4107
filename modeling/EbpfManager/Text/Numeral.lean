namespace EbpfManager.Text

-- The value of a run of decimal digits, read after `acc`; nothing at the first other character.
def digits? : Nat → List Char → Option Nat
  | acc, [] => some acc
  | acc, c :: cs => if c.isDigit then digits? (acc * 10 + (c.toNat - 48)) cs else none

-- A number below 2^32: one plus sign or none, then at least one digit, leading zeros allowed.
def word32? (text : List Char) : Option Nat :=
  let digits := match text with
    | '+' :: rest => rest
    | _ => text
  if digits.isEmpty then none else (digits? 0 digits).filter (· < 0x100000000)

-- The hexadecimal numeral of `n`, after `0x`.
def hex (n : Nat) : String :=
  "0x" ++ String.ofList (Nat.toDigits 16 n)

-- Octets as decimal numerals in square brackets.
def byteList (bs : List UInt8) : String :=
  "[" ++ String.intercalate ", " (bs.map fun b => toString b.toNat) ++ "]"

end EbpfManager.Text
