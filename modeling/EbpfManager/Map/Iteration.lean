import EbpfManager.Map.Access

namespace EbpfManager

-- How far a walk has come: it remembers the last key. The kernel gives the key after it, even if it
-- is gone by then, so keys only ever go up.
structure Cursor where
  last : Option Bytes := none
  done : Bool := false
  deriving DecidableEq, Repr

namespace Map

open Attempt

-- The key after `key`, or the first one.
def nextKey (m : Map) (key : Option Bytes) : Attempt (Option Bytes) := do
  let fd ← m.liveFd
  if let some key := key then
    if key.length ≠ m.keySize then
      throw (.invalidKey m.name (.length m.keySize key.length))
  accept (.syscall .mapNextKey) (← perform (.mapNextKey fd key m.keySize))

-- One step to the next key. A failure is the last thing that a walk yields.
def stepKey (m : Map) (c : Cursor) (h : Host) : Option (Except Error Bytes) × Cursor × Host :=
  if c.done then (none, c, h)
  else match m.nextKey c.last h with
    | .ok (some key) h => (some (.ok key), { c with last := some key }, h)
    | .ok none h => (none, { c with done := true }, h)
    | .error e h => (some (.error e), { c with done := true }, h)

-- The value at a key, on the way.
def valueAt (m : Map) (key : Bytes) : Attempt Bytes := do
  let fd ← m.liveFd
  m.lookupOctets fd key

-- One step to the next entry, passing over at most `bound` keys whose entries are gone.
def stepEntryWithin (m : Map) : Nat → Cursor → Host →
    Option (Except Error (Bytes × Bytes)) × Cursor × Host
  | 0, c, h => (none, c, h)
  | bound + 1, c, h =>
    match m.stepKey c h with
    | (none, c, h) => (none, c, h)
    | (some (.error e), c, h) => (some (.error e), c, h)
    | (some (.ok key), c, h) =>
      match m.valueAt key h with
      | .ok value h => (some (.ok (key, value)), c, h)
      | .error (.notFound _) h => m.stepEntryWithin bound c h
      | .error e h => (some (.error e), c, h)

-- One step to the next entry. Keys go up, so no more keys can be passed over than there are
-- entries on the machine.
def stepEntry (m : Map) (c : Cursor) (h : Host) :
    Option (Except Error (Bytes × Bytes)) × Cursor × Host :=
  m.stepEntryWithin (h.machine.entryCount + 1) c h

end Map

end EbpfManager
