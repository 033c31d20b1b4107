import EbpfManager.Bytes

namespace EbpfManager.Text

-- The octets of one character.
def encodeChar (c : Char) : Bytes :=
  let n := c.toNat
  let octets : List Nat :=
    if n < 0x80 then [n]
    else if n < 0x800 then [0xC0 + n / 64, 0x80 + n % 64]
    else if n < 0x10000 then [0xE0 + n / 4096, 0x80 + n / 64 % 64, 0x80 + n % 64]
    else [0xF0 + n / 262144, 0x80 + n / 4096 % 64, 0x80 + n / 64 % 64, 0x80 + n % 64]
  octets.map UInt8.ofNat

-- The octets of a text.
def encode (text : String) : Bytes :=
  text.toList.flatMap encodeChar

-- Where the reader stands between two octets.
inductive Position
  -- Between two characters.
  | fresh
  -- Inside a character: `more + 1` octets are still due, the next of them between `low` and
  -- `high`, and `bits` has been read so far.
  | inside (more low high bits : Nat)
  deriving DecidableEq, Repr

-- The pieces completed by octet `b` when it comes between two characters. Shortest forms only,
-- no surrogates and nothing above U+10FFFF: this is what the narrower second octets are for.
def start (b : Nat) : List (Option Char) × Position :=
  if b < 0x80 then ([some (Char.ofNat b)], .fresh)
  else if 0xC2 ≤ b ∧ b ≤ 0xDF then ([], .inside 0 0x80 0xBF (b - 0xC0))
  else if b = 0xE0 then ([], .inside 1 0xA0 0xBF 0)
  else if b = 0xED then ([], .inside 1 0x80 0x9F 0xD)
  else if 0xE1 ≤ b ∧ b ≤ 0xEF then ([], .inside 1 0x80 0xBF (b - 0xE0))
  else if b = 0xF0 then ([], .inside 2 0x90 0xBF 0)
  else if 0xF1 ≤ b ∧ b ≤ 0xF3 then ([], .inside 2 0x80 0xBF (b - 0xF0))
  else if b = 0xF4 then ([], .inside 2 0x80 0x8F 4)
  else ([none], .fresh)

-- The pieces completed by octet `b`. An octet that cannot continue a character ends the run
-- before it and is looked at afresh.
def step : Position → Nat → List (Option Char) × Position
  | .fresh, b => start b
  | .inside more low high bits, b =>
    if low ≤ b ∧ b ≤ high then
      match more with
      | 0 => ([some (Char.ofNat (bits * 64 + (b - 0x80)))], .fresh)
      | more + 1 => ([], .inside more 0x80 0xBF (bits * 64 + (b - 0x80)))
    else
      let (pieces, next) := start b
      (none :: pieces, next)

-- The pieces of what follows a position; `none` is a run that is no character.
def pieces : Position → Bytes → List (Option Char)
  | .fresh, [] => []
  | .inside .., [] => [none]
  | position, b :: rest =>
    let (done, next) := step position b.toNat
    done ++ pieces next rest

-- The text that `bs` encodes, if it encodes one.
def decode? (bs : Bytes) : Option String :=
  ((pieces .fresh bs).mapM id).map String.ofList

-- The text of `bs`, with U+FFFD for each maximal run that is no character.
def decodeLossy (bs : Bytes) : String :=
  String.ofList ((pieces .fresh bs).map (·.getD '\uFFFD'))

-- A text as it is handed over to a foreign interface: its octets and a final zero. A text that
-- holds a zero itself has no such form.
def terminated? (text : String) : Option Bytes :=
  let octets := encode text
  if 0 ∈ octets then none else some (octets ++ [0])

-- The text before the first zero octet; nothing if there is no zero or no text before it.
def ofTerminated? (bs : Bytes) : Option String :=
  bs.terminated?.bind decode?

-- The text in a field that is filled up with zeros.
def ofPadded (bs : Bytes) : String :=
  decodeLossy bs.beforeZero

end EbpfManager.Text
