import EbpfManager.Proofs.Handles.Requests
import EbpfManager.Proofs.Kernel.Entries

namespace EbpfManager

-- What the values of a map of this kind stand for, if they stand for objects.
def MapKind.object? : MapKind → Option (Nat → KernelObject)
  | programArray             => some .program
  | arrayOfMaps | hashOfMaps => some .map
  | _                        => none

namespace MapKind

variable {kind : MapKind} {object : Nat → KernelObject}

theorem object?_eq_some (h : kind.object? = some object) :
    kind = .programArray ∧ object = .program ∨ kind.isMapOfMaps ∧ object = .map := by
  cases kind <;> simp_all [object?, isMapOfMaps]

theorem isHandleArray_of_object? (h : kind.object? = some object) : kind.isHandleArray = kind.isArray := by
  cases kind <;> simp_all [object?, isHandleArray, isArray]

theorem isPerCpu_of_object? (h : kind.object? = some object) : kind.isPerCpu = false := by
  cases kind <;> simp_all [object?, isPerCpu]

end MapKind

namespace KernelMap

variable {map : KernelMap} {object : Nat → KernelObject}

theorem not_slotted_of_object? (h : map.kind.object? = some object) : ¬map.Slotted := by
  rintro ⟨ha, hn⟩
  exact hn (MapKind.isHandleArray_of_object? h ▸ ha)

theorem WellFormed.valueLength_of_object? (w : map.WellFormed) (h : map.kind.object? = some object) :
    map.info.valueSize.toNat = 4 ∧ map.valueLength = 4 := by
  have hv : map.info.valueSize = 4 := by
    have ha := w.allowed
    obtain ⟨hk, _⟩ | ⟨hk, _⟩ := MapKind.object?_eq_some h <;> simp_all [Machine.shapeAllowed, shape]
  have hs : map.info.valueSize.toNat = 4 := by rw [hv]; rfl
  exact ⟨hs, by simp [w.valueLength, Machine.valueLength, MapKind.isPerCpu_of_object? h, hs]⟩

end KernelMap

namespace Machine

variable {m : Machine} {kind : MapKind} {object : Nat → KernelObject} {value stored : Bytes}

-- What is kept of a handle is the number of the object that it is open on, if that is of the right sort.
theorem storedValue_eq_ok (h : kind.object? = some object) (hl : value.length = 4) :
    m.storedValue kind value = .ok stored ↔
      ∃ n, m.handles.get? (Bytes.toInt value) = some (object n) ∧ stored = Bytes.ofNat 4 n := by
  obtain ⟨rfl, rfl⟩ | ⟨hk, rfl⟩ := MapKind.object?_eq_some h
  case' inl =>
    simp only [storedValue, hl, ne_eq, not_true, if_false, if_true, bind_eq_ok, objectAt_eq_ok_iff]
  case' inr =>
    have hp : kind ≠ .programArray := by rintro rfl; cases hk
    simp only [storedValue, hl, hp, hk, ne_eq, not_true, if_false, if_true, bind_eq_ok, objectAt_eq_ok_iff]
  all_goals
    constructor
    case mp =>
      rintro ⟨object, ho, hs⟩
      split at hs <;> cases hs
      exact ⟨_, ho, rfl⟩
    case mpr =>
      rintro ⟨n, ho, rfl⟩
      exact ⟨_, ho, rfl⟩

end Machine

-- That the values of a map are numbers of objects that are there, if they stand for objects.
def KernelMap.Refers (map : KernelMap) (m : Machine) : Prop :=
  ∀ object, map.kind.object? = some object → ∀ key value, map.entries.get? key = some value →
    ∃ n, m.Has (object n) ∧ value = Bytes.ofNat 4 n

namespace KernelMap

variable {map : KernelMap} {m m' : Machine}

theorem Refers.keeps (w : map.Refers m) (k : m.Keeps m') : map.Refers m' := by
  intro object hk key value hg
  obtain ⟨n, hn, he⟩ := w object hk key value hg
  exact ⟨n, k.has hn, he⟩

theorem Refers.insert {key value stored : Bytes} (w : map.Refers m) (f : map.WellFormed) (c : m.Consistent)
    (hs : m.storedValue map.kind value = .ok stored) (hl : value.length = map.valueLength) :
    Refers { map with entries := map.entries.insert key stored } m := by
  intro object hk
  refine Table.forall_get?_insert (w object hk) ?_
  have hl := hl.trans (f.valueLength_of_object? hk).right
  obtain ⟨n, ho, he⟩ := (Machine.storedValue_eq_ok hk hl).mp hs
  exact ⟨n, c.handle ho, he⟩

theorem Refers.erase (w : map.Refers m) (key : Bytes) :
    Refers { map with entries := map.entries.erase key } m :=
  fun object hk => Table.forall_get?_erase (w object hk) key

end KernelMap

namespace Machine

variable {m : Machine}

theorem refers_newMap (a : MapAttributes) (m' : Machine) : (m.newMap a).Refers m' := by
  intro object hk key value hg
  have he : (m.newMap a).entries = .empty := if_neg (KernelMap.not_slotted_of_object? hk)
  rw [he] at hg
  cases hg

def MapsRefer (m : Machine) : Prop :=
  ∀ id map, m.maps.get? id = some map → map.Refers m

theorem MapsRefer.answer (w : m.MapsRefer) (f : m.MapsWellFormed) (c : m.Consistent) (r : Request) :
    (m.answer r).2.MapsRefer := by
  have ch := m.mapsChange r
  have k : m.Keeps (m.answer r).2 := (c.answer r).elim fun _ b => b.keeps
  unfold MapsRefer
  generalize (m.answer r).2 = m' at ch k ⊢
  have w' : ∀ id map, m.maps.get? id = some map → map.Refers m' := fun id map h => (w id map h).keeps k
  generalize m'.maps = maps at ch
  cases ch
  case same   => exact w'
  case create => exact Table.forall_get?_insert w' (refers_newMap _ m')
  case update hm hs hk hl ha =>
    have hg := (mapAt_eq_ok hm).right
    exact Table.forall_get?_insert w' <| ((w _ _ hg).insert (f _ _ hg) c hs hl).keeps k
  case delete hm _ =>
    exact Table.forall_get?_insert w' <| ((w _ _ (mapAt_eq_ok hm).right).erase _).keeps k

end Machine

end EbpfManager
