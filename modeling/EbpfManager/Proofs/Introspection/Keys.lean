import EbpfManager.Proofs.Kernel.Calls
import Mathlib.Data.List.Basic

namespace EbpfManager

-- Names that the kernel takes.
def PlainName (name : String) : Prop :=
  ∀ c ∈ name.toList, c.isAlphanum ∨ c = '_' ∨ c = '.'

instance : DecidablePred PlainName :=
  fun name => List.decidableBAll _ name.toList

-- A map as it is shown: its key, its number, and what the kernel has under the number.
structure ShownMap where
  key : String
  id  : Nat
  map : KernelMap

namespace ShownMap

-- The key of a map behind others, of which `names` are the names.
def keyBehind (names : List String) (name : String) (id : Nat) : String :=
  if name ∈ names then s!"{name}#{id}" else name

-- Maps with their keys, behind others.
def keyed (names : List String) : List (Nat × KernelMap) → List ShownMap
  | []                 => []
  | (id, map) :: known =>
    ⟨keyBehind names map.info.name id, id, map⟩ :: keyed (names ++ [map.info.name]) known

end ShownMap

-- Those of the maps with given numbers that are of known kinds.
def Machine.known (m : Machine) (ids : List Nat) : List (Nat × KernelMap) :=
  ids.filterMap fun id => (m.maps.get? id).bind fun map =>
    if (MapKind.ofNumber? map.info.kindNumber).isSome then some (id, map) else none

section

variable {name other : String} {id number : Nat} {names : List String} {known : List (Nat × KernelMap)}

theorem PlainName.not_mem (h : PlainName name) : '#' ∉ name.toList := by
  intro hm
  simpa using h _ hm

theorem toList_numbered (name : String) (id : Nat) :
    (s!"{name}#{id}").toList = name.toList ++ '#' :: Nat.toDigits 10 id := by
  rw [String.toList_append, String.toList_append, List.append_assoc, Nat.toString_eq_ofList_toDigits,
    String.toList_ofList]
  rfl

theorem not_mem_toDigits (id : Nat) : '#' ∉ Nat.toDigits 10 id := by
  intro hm
  have hd := Nat.isDigit_of_mem_toDigits (by decide) (by decide) hm
  simp at hd

theorem PlainName.ne_numbered (h : PlainName name) : name ≠ s!"{other}#{id}" := by
  rintro rfl
  refine h.not_mem ?_
  rw [toList_numbered]
  exact List.mem_append_right _ List.mem_cons_self

theorem PlainName.numbered_inj (h : PlainName name) (he : s!"{name}#{id}" = s!"{other}#{number}") : id = number := by
  have he := congrArg String.toList he
  rw [toList_numbered, toList_numbered] at he
  obtain ⟨_, _, hd⟩ := (List.append_cons_inj_of_notMem h.not_mem (not_mem_toDigits id)).mp he
  have hn := congrArg (Nat.ofDigitChars 10 · 0) hd
  simpa using hn

namespace ShownMap

-- A key is a name that none before had, or a name with a number.
theorem keyBehind_cases (names : List String) (name : String) (id : Nat) :
    (keyBehind names name id = name ∧ name ∉ names) ∨
      (keyBehind names name id = s!"{name}#{id}" ∧ name ∈ names) := by
  by_cases hm : name ∈ names <;> simp [keyBehind, hm]

theorem exists_of_mem_keyed {u : ShownMap} (h : u ∈ keyed names known) : (u.id, u.map) ∈ known ∧
    ((u.key = u.map.info.name ∧ u.map.info.name ∉ names) ∨ u.key = s!"{u.map.info.name}#{u.id}") := by
  induction known generalizing names
  case nil => cases h
  case cons e known ih =>
    obtain ⟨id, map⟩ := e
    cases List.mem_cons.mp h
    case inl he =>
      subst he
      exact ⟨List.mem_cons_self, (keyBehind_cases names map.info.name id).imp_right And.left⟩
    case inr h =>
      obtain ⟨hk, hu⟩ := ih h
      refine ⟨List.mem_cons_of_mem _ hk, hu.imp_left fun hu => ⟨hu.left, fun hm => ?_⟩⟩
      exact hu.right (List.mem_append_left _ hm)

-- By induction on the maps: what comes behind a map has another number, and not just its name.
theorem nodup_keyed (hn : (known.map Prod.fst).Nodup) (hp : ∀ e ∈ known, PlainName e.2.info.name) :
    ((keyed names known).map key).Nodup := by
  induction known generalizing names
  case nil => exact .nil
  case cons e known ih =>
    obtain ⟨id, map⟩ := e
    obtain ⟨hid, hn⟩ := List.nodup_cons.mp hn
    obtain ⟨hname, hp⟩ := List.forall_mem_cons.mp hp
    refine List.nodup_cons.mpr ⟨fun hm => ?_, ih hn hp⟩
    obtain ⟨u, hu, he⟩ := List.mem_map.mp hm
    obtain ⟨hk, hu⟩ := exists_of_mem_keyed hu
    have hu' := hp _ hk
    obtain ⟨hl, _⟩ | ⟨hl, _⟩ := keyBehind_cases names map.info.name id
    case inl =>
      rw [hl] at he
      obtain ⟨hr, hne⟩ | hr := hu
      case inl => exact hne (by simp [← hr, he])
      case inr => exact hname.ne_numbered (he.symm.trans hr)
    case inr =>
      rw [hl] at he
      obtain ⟨hr, _⟩ | hr := hu
      case inl => exact hu'.ne_numbered (hr.symm.trans he)
      case inr =>
        have hi : u.id = id := hu'.numbered_inj (hr.symm.trans he)
        have hm : u.id ∈ known.map Prod.fst := List.mem_map_of_mem (f := Prod.fst) hk
        exact hid (hi ▸ hm)

end ShownMap

namespace Machine

variable {m : Machine} {ids : List Nat} {map : KernelMap}

theorem known_cons_of_unknown (hm : m.maps.get? id = some map) (hn : MapKind.ofNumber? map.info.kindNumber = none) :
    m.known (id :: ids) = m.known ids := by
  simp [known, hm, hn]

theorem known_cons_of_known {kind : MapKind} (hm : m.maps.get? id = some map)
    (hk : MapKind.ofNumber? map.info.kindNumber = some kind) : m.known (id :: ids) = (id, map) :: m.known ids := by
  simp [known, hm, hk]

theorem get?_of_mem_known {e : Nat × KernelMap} (h : e ∈ m.known ids) : m.maps.get? e.1 = some e.2 := by
  obtain ⟨id, _, he⟩ := List.mem_filterMap.mp h
  obtain ⟨map, hm, he⟩ := Option.bind_eq_some_iff.mp he
  split at he <;> cases he
  exact hm

theorem known_sublist (m : Machine) (ids : List Nat) : ((m.known ids).map Prod.fst).Sublist ids := by
  induction ids
  case nil => exact .slnil
  case cons id ids ih =>
    cases hm : m.maps.get? id
    case none => simpa [known, hm] using ih.cons id
    case some map =>
      cases hk : MapKind.ofNumber? map.info.kindNumber
      case none =>
        rw [known_cons_of_unknown hm hk]
        exact ih.cons id
      case some _ =>
        rw [known_cons_of_known hm hk]
        exact ih.cons_cons id

end Machine

end

end EbpfManager
