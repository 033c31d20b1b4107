namespace EbpfManager

-- A finite map from keys to values, kept in the order of the keys.
structure Table (κ ν : Type) where
  entries : List (κ × ν)
  deriving Repr

namespace Table

variable {κ ν : Type}

def empty : Table κ ν := ⟨[]⟩

def size (t : Table κ ν) : Nat := t.entries.length

def keys (t : Table κ ν) : List κ := t.entries.map Prod.fst

def values (t : Table κ ν) : List ν := t.entries.map Prod.snd

variable [DecidableEq κ]

def get? (t : Table κ ν) (k : κ) : Option ν :=
  (t.entries.find? (·.1 = k)).map Prod.snd

def contains (t : Table κ ν) (k : κ) : Bool := (t.get? k).isSome

def erase (t : Table κ ν) (k : κ) : Table κ ν :=
  ⟨t.entries.filter (·.1 ≠ k)⟩

variable [LT κ] [DecidableLT κ]

-- The entry for `k` becomes `v`, at the place where `k` belongs.
def insertEntry (k : κ) (v : ν) : List (κ × ν) → List (κ × ν)
  | [] => [(k, v)]
  | e :: rest =>
    if k = e.1 then (k, v) :: rest
    else if k < e.1 then (k, v) :: e :: rest
    else e :: insertEntry k v rest

def insert (t : Table κ ν) (k : κ) (v : ν) : Table κ ν :=
  ⟨insertEntry k v t.entries⟩

-- The first entry with a key above `k`.
def next? (t : Table κ ν) (k : κ) : Option (κ × ν) :=
  t.entries.find? (k < ·.1)

omit [LT κ] [DecidableLT κ] in
@[simp] theorem get?_empty (k : κ) : (empty : Table κ ν).get? k = none := rfl

theorem find?_insertEntry (k k' : κ) (v : ν) (entries : List (κ × ν)) :
    ((insertEntry k v entries).find? (·.1 = k')).map Prod.snd =
      if k = k' then some v else (entries.find? (·.1 = k')).map Prod.snd := by
  induction entries with
  | nil => by_cases h : k = k' <;> simp [insertEntry, h]
  | cons e rest ih =>
    unfold insertEntry
    split
    · by_cases h : k = k' <;> grind
    · split
      · by_cases h : k = k' <;> simp [h]
      · by_cases h : e.1 = k' <;> grind

theorem get?_insert (t : Table κ ν) (k k' : κ) (v : ν) :
    (t.insert k v).get? k' = if k = k' then some v else t.get? k' :=
  find?_insertEntry ..

omit [LT κ] [DecidableLT κ] in
theorem get?_erase (t : Table κ ν) (k k' : κ) :
    (t.erase k).get? k' = if k = k' then none else t.get? k' := by
  obtain ⟨entries⟩ := t
  induction entries with
  | nil => simp [erase, get?]
  | cons e rest ih =>
    simp only [erase, get?, List.filter_cons] at ih ⊢
    by_cases h : e.1 = k <;> by_cases h' : e.1 = k' <;> grind

omit [DecidableEq κ] in
theorem mem_of_next? {t : Table κ ν} {k : κ} {e : κ × ν} (h : t.next? k = some e) :
    e ∈ t.entries :=
  List.mem_of_find?_eq_some h

end Table

end EbpfManager
