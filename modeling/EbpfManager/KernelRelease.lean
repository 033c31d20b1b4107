import EbpfManager.Text.Blank
import EbpfManager.Text.Numeral

namespace EbpfManager.KernelRelease

-- A version code that does not fit its 32 bits.
inductive CodeOverflow
  | mk
  deriving DecidableEq, Repr

-- The code of a release: one octet each for the minor number and for the patch, which is cut to
-- 255. The major number loses what is shifted out; the sum has to fit.
def code (major minor patch : Nat) : Except CodeOverflow Nat :=
  let sum := major * 0x10000 % 0x100000000 + minor * 0x100 % 0x100000000 + min patch 255
  if sum < 0x100000000 then .ok sum else .error .mk

-- The maximal runs of digits in a text.
def numerals (text : List Char) : List (List Char) :=
  (text.splitOnP (!·.isDigit)).filter (· ≠ [])

-- The code of a release such as `6.1.0-13-amd64`, with white space around it or without. Its first
-- three numerals count; a numeral of 2^32 or more counts as missing, and without the first there is no
-- code.
def parse (text : String) : Except CodeOverflow (Option Nat) :=
  let parts := (numerals (Text.trim text.toList)).map Text.word32?
  match parts.head?.join with
  | none => .ok none
  | some major => some <$> code major (parts[1]?.join.getD 0) (parts[2]?.join.getD 0)

end EbpfManager.KernelRelease
