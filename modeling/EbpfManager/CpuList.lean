import EbpfManager.Text.Blank
import EbpfManager.Text.Numeral

namespace EbpfManager

-- Processors `first` to `last`, both included.
structure CpuRange where
  first : Nat
  last : Nat
  deriving DecidableEq, Repr

namespace CpuRange

-- The processors of a range in ascending order.
def toList (r : CpuRange) : List Nat :=
  List.range' r.first (r.last + 1 - r.first)

-- Two numbers around the first minus sign, or one number alone; never a descending range.
def parse? (text : List Char) : Option CpuRange := do
  let first ← Text.word32? (text.takeWhile (· ≠ '-'))
  let last ← match text.dropWhile (· ≠ '-') with
    | [] => some first
    | _ :: rest => Text.word32? rest
  if last < first then none else some ⟨first, last⟩

end CpuRange

namespace CpuList

-- A text that is no list of processors, without the white space around it.
structure Invalid where
  text : String
  deriving DecidableEq, Repr

def Invalid.message (e : Invalid) : String :=
  s!"invalid CPU list `{e.text}`"

-- The processors that `text` lists, in its order: `0-3,5,7-8`. Empty pieces between commas count
-- for nothing, but a list with no processor at all is invalid.
def parse (text : String) : Except Invalid (List Nat) :=
  let trimmed := Text.trim text.toList
  match ((trimmed.splitOn ',').filter (· ≠ [])).mapM CpuRange.parse? with
  | none | some [] => .error ⟨String.ofList trimmed⟩
  | some ranges => .ok (ranges.flatMap CpuRange.toList)

end CpuList

end EbpfManager
