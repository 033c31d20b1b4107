import EbpfManager.Proofs.Kernel.Calls
import EbpfManager.Proofs.SortedTable

namespace EbpfManager

instance : IsStrictTotalOrder Bytes (· < ·) where
  irrefl             := List.lt_irrefl
  trans _ _ _        := List.lt_trans
  trichotomous _ _ h h' := List.le_antisymm (List.not_lt.mp h') (List.not_lt.mp h)

namespace Machine

section Indices

variable {width count : Nat} {key : Bytes}

-- The numbers that begin with a digit and are below `count`.
theorem lt_ceil_iff {digit count n : Nat} :
    n < (count - digit + 255) / 256 ↔ digit + 256 * n < count := by
  omega

theorem mem_indexKeys_iff : key ∈ indexKeys width count ↔ key.length = width ∧ Bytes.toNat key < count := by
  induction width generalizing count key
  case zero =>
    by_cases hc : count = 0 <;> simp [indexKeys, hc]
    rintro rfl
    simpa [Bytes.toNat] using Nat.pos_of_ne_zero hc
  case succ width ih =>
    simp only [indexKeys, List.mem_flatMap, List.mem_range, List.mem_map, ih, lt_ceil_iff]
    constructor
    case mp =>
      rintro ⟨digit, hd, rest, ⟨hl, hr⟩, rfl⟩
      have hd : digit < 256 := lt_of_lt_of_le hd (min_le_right ..)
      simp [Bytes.toNat, hl, Nat.mod_eq_of_lt hd, hr]
    case mpr =>
      rintro ⟨hl, hr⟩
      obtain ⟨digit, rest, rfl⟩ := List.exists_of_length_succ key hl
      have hd := digit.toNat_lt
      simp only [Bytes.toNat] at hr
      exact ⟨digit.toNat, by omega, rest, ⟨by simpa using hl, hr⟩, by simp⟩

theorem indexKeys_pairwise (width count : Nat) : (indexKeys width count).Pairwise (· < ·) := by
  induction width generalizing count
  case zero => by_cases hc : count = 0 <;> simp [indexKeys, hc]
  case succ width ih =>
    -- The first digit goes up, and behind it the other digits do.
    refine List.pairwise_flatMap.mpr ⟨fun digit _ => ?_, ?_⟩
    case refine_1 => exact List.pairwise_map.mpr <| (ih _).imp List.cons_lt_cons_self.mpr
    case refine_2 =>
      refine List.pairwise_lt_range.imp_of_mem fun {a b} ha hb hab k hk k' hk' => ?_
      obtain ⟨_, _, rfl⟩ := List.mem_map.mp hk
      obtain ⟨_, _, rfl⟩ := List.mem_map.mp hk'
      have hb : b < 256 := lt_of_lt_of_le (List.mem_range.mp hb) (min_le_right ..)
      refine List.cons_lt_cons_iff.mpr <| .inl <| UInt8.lt_iff_toNat_lt.mpr ?_
      simpa [Nat.mod_eq_of_lt hb, Nat.mod_eq_of_lt (hab.trans hb)] using hab

-- A table with one value for all keys.
theorem get?_of_keys (keys : List Bytes) (value : Bytes) (key : Bytes) :
    (⟨keys.map (·, value)⟩ : Table Bytes Bytes).get? key = if key ∈ keys then some value else none := by
  induction keys
  case nil => rfl
  case cons k keys ih =>
    rw [List.map_cons, Table.get?_cons, ih]
    by_cases hk : k = key
    case pos => simp [hk]
    case neg => simp [hk, Ne.symm hk]

end Indices

section Creation

variable {s : MapShape} {key value : Bytes}

theorem get?_initialEntries (hs : s.kind.isArray ∧ ¬s.kind.isHandleArray) :
    (initialEntries s).get? key = if key.length = 4 ∧ Bytes.toNat key < s.maxEntries.toNat then
      some (List.replicate (valueLength s.kind s.valueSize.toNat) 0) else none := by
  simp only [initialEntries, if_pos hs, get?_of_keys, mem_indexKeys_iff]

theorem get?_initialEntries_eq_some (h : (initialEntries s).get? key = some value) :
    s.kind.isArray ∧ key.length = 4 ∧ Bytes.toNat key < s.maxEntries.toNat ∧
      value = List.replicate (valueLength s.kind s.valueSize.toNat) 0 := by
  by_cases hs : s.kind.isArray ∧ ¬s.kind.isHandleArray
  case pos =>
    rw [get?_initialEntries hs] at h
    split at h <;> cases h
    exact ⟨hs.left, by tauto, by tauto, rfl⟩
  case neg =>
    rw [initialEntries, if_neg hs] at h
    cases h

theorem sorted_initialEntries (s : MapShape) : (initialEntries s).Sorted := by
  unfold initialEntries
  split
  case isTrue  => simpa [Table.Sorted, Table.keys, Function.comp_def] using indexKeys_pairwise ..
  case isFalse => exact Table.sorted_empty

theorem keySize_of_shapeAllowed (ha : shapeAllowed s) (hs : s.kind.isArray) : s.keySize.toNat = 4 := by
  simp only [shapeAllowed, hs, Bool.not_true, Bool.false_or, Bool.and_eq_true, beq_iff_eq] at ha
  simp [ha.left.right]

end Creation

end Machine

namespace KernelMap

def shape (map : KernelMap) : MapShape where
  kind       := map.kind
  keySize    := map.info.keySize
  valueSize  := map.info.valueSize
  maxEntries := map.info.maxEntries
  flags      := map.info.flags

-- That the slots of a map are there from the beginning.
def Slotted (map : KernelMap) : Prop :=
  map.kind.isArray ∧ ¬map.kind.isHandleArray

structure WellFormed (map : KernelMap) : Prop where
  number {kind} : MapKind.ofNumber? map.info.kindNumber = some kind → kind = map.kind
  allowed : Machine.shapeAllowed map.shape
  valueLength : map.valueLength = Machine.valueLength map.kind map.info.valueSize.toNat
  sorted : map.entries.Sorted
  key {key value} : map.entries.get? key = some value → key.length = map.info.keySize.toNat
  value {key value} : map.entries.get? key = some value → value.length = map.valueLength
  room : ¬map.kind.isArray → map.entries.size ≤ map.info.maxEntries.toNat
  index {key value} : map.kind.isArray → map.entries.get? key = some value →
    Bytes.toNat key < map.info.maxEntries.toNat
  slot {key} : map.Slotted → key.length = 4 → Bytes.toNat key < map.info.maxEntries.toNat →
    ∃ value, map.entries.get? key = some value

namespace WellFormed

variable {map : KernelMap} {key value : Bytes}

theorem keySize_of_isArray (w : map.WellFormed) (ha : map.kind.isArray) :
    map.info.keySize.toNat = 4 :=
  Machine.keySize_of_shapeAllowed w.allowed ha

-- What a map that is no array has room for, and which keys an array takes.
theorem size_insert_le {flags : UpdateFlags} (w : map.WellFormed) (hn : ¬map.kind.isArray)
    (ha : Machine.admits map key flags = .ok ()) :
    (map.entries.insert key value).size ≤ map.info.maxEntries.toNat := by
  rw [w.sorted.size_insert]
  split
  case isTrue => exact w.room hn
  case isFalse hc =>
    by_contra hs
    have hr : map.info.maxEntries.toNat ≤ map.entries.size := by omega
    simp only [Machine.admits, Machine.fails, hn, hc, hr] at ha
    split at ha <;> simp at ha
    split at ha <;> cases ha

theorem toNat_lt {flags : UpdateFlags} (w : map.WellFormed) (hi : map.kind.isArray)
    (hk : key.length = map.info.keySize.toNat) (ha : Machine.admits map key flags = .ok ()) :
    Bytes.toNat key < map.info.maxEntries.toNat := by
  have hl : key.take 4 = key := List.take_of_length_le (by simp [hk, w.keySize_of_isArray hi])
  by_contra hs
  simp only [Machine.admits, Machine.fails, hi, hl, not_lt.mp hs] at ha
  split at ha <;> cases ha

-- A value for a key that the map takes.
theorem insert {flags : UpdateFlags} (w : map.WellFormed)
    (hk : key.length = map.info.keySize.toNat) (hv : value.length = map.valueLength)
    (ha : Machine.admits map key flags = .ok ()) :
    WellFormed { map with entries := map.entries.insert key value } := by
  exact { w with
    sorted := w.sorted.insert ..
    key {k v} := Table.forall_get?_insert (p := fun k _ => k.length = _) (fun _ _ => w.key) hk k v
    value {k v} := Table.forall_get?_insert (p := fun _ v => v.length = _) (fun _ _ => w.value) hv k v
    room h := w.size_insert_le h ha
    index {k v} h := Table.forall_get?_insert (p := fun k _ => Bytes.toNat k < _)
      (fun _ _ => w.index h) (w.toNat_lt h hk ha) k v
    slot h hl hi := by
      obtain ⟨v, hg⟩ := w.slot h hl hi
      rw [Table.get?_insert]
      split
      case isTrue  => exact ⟨_, rfl⟩
      case isFalse => exact ⟨v, hg⟩ }

theorem erase (w : map.WellFormed) (hn : ¬map.kind.isArray) (key : Bytes) :
    WellFormed { map with entries := map.entries.erase key } := by
  have old {k v} (h : (map.entries.erase key).get? k = some v) : map.entries.get? k = some v := by
    rw [Table.get?_erase] at h
    split at h
    case isTrue  => cases h
    case isFalse => exact h
  exact { w with
    sorted    := w.sorted.erase key
    key h     := w.key (old h)
    value h   := w.value (old h)
    room h    := (List.length_filter_le ..).trans (w.room h)
    index h _ := absurd h hn
    slot h    := absurd h.left hn }

end WellFormed

end KernelMap

namespace Machine

variable {m : Machine}

theorem wellFormed_newMap {a : MapAttributes} (ha : shapeAllowed a.shape) :
    (m.newMap a).WellFormed where
  number h    := (Option.some_inj.mp ((MapKind.ofNumber?_number _).symm.trans h)).symm
  allowed     := ha
  valueLength := rfl
  sorted      := sorted_initialEntries _
  key h := by
    obtain ⟨hs, hl, _⟩ := get?_initialEntries_eq_some h
    exact hl.trans (keySize_of_shapeAllowed ha hs).symm
  value h := by
    obtain ⟨_, _, _, rfl⟩ := get?_initialEntries_eq_some h
    exact List.length_replicate
  room h := by
    have he : initialEntries a.shape = .empty := if_neg fun hs => h hs.left
    simp [newMap, he, Table.size, Table.empty]
  index _ h      := (get?_initialEntries_eq_some h).right.right.left
  slot hs hl hi  := ⟨_, (get?_initialEntries hs).trans (if_pos ⟨hl, hi⟩)⟩

-- What a request can do to the maps.
inductive MapsChange (m : Machine) : Request → Table Nat KernelMap → Prop
  | same (r : Request) : MapsChange m r m.maps
  | create {a : MapAttributes} : shapeAllowed a.shape →
      MapsChange m (.mapCreate a) (m.maps.insert (m.lastId + 1) (m.newMap a))
  | update {fd : Fd} {key value stored : Bytes} {flags : UpdateFlags} {id : Nat} {map : KernelMap} :
      m.mapAt fd = .ok (id, map) → m.storedValue map.kind value = .ok stored →
      key.length = map.info.keySize.toNat → value.length = map.valueLength →
      admits map key flags = .ok () →
      MapsChange m (.mapUpdate fd key value flags)
        (m.maps.insert id { map with entries := map.entries.insert key stored })
  | delete {fd : Fd} {key : Bytes} {id : Nat} {map : KernelMap} :
      m.mapAt fd = .ok (id, map) → ¬map.kind.isArray →
      MapsChange m (.mapDelete fd key)
        (m.maps.insert id { map with entries := map.entries.erase key })

-- The number of an object is as long as the handle that it is stored for.
theorem length_of_storedValue {kind : MapKind} {value stored : Bytes}
    (h : m.storedValue kind value = .ok stored) : stored.length = value.length := by
  simp only [storedValue, fails] at h
  split at h
  case isTrue => cases h; rfl
  case isFalse hl =>
    have hl := not_not.mp hl
    split at h
    case isTrue =>
      obtain ⟨object, _, h⟩ := bind_eq_ok.mp h
      split at h <;> cases h
      rw [hl, Bytes.length_ofNat]
    case isFalse =>
      split at h
      case isTrue =>
        obtain ⟨object, _, h⟩ := bind_eq_ok.mp h
        split at h <;> cases h
        rw [hl, Bytes.length_ofNat]
      case isFalse => cases h; rfl

theorem mapsChange (m : Machine) (r : Request) : m.MapsChange r (m.answer r).2.maps := by
  have f := (m.frame r).maps
  cases r
  case mapCreate a =>
    refine settle_cases (p := fun m' => m.MapsChange _ m'.maps) (.same _) fun _ _ h => ?_
    obtain ⟨ha, ho⟩ := mapCreate_eq_ok h
    cases ho
    exact .create ha
  case mapUpdate fd key value flags =>
    refine settle_cases (p := fun m' => m.MapsChange _ m'.maps) (.same _) fun _ _ h => ?_
    obtain ⟨id, map, stored, hm, hs, hk, hv, ha, rfl⟩ := mapUpdate_eq_ok h
    exact .update hm hs hk hv ha
  case mapDelete fd key =>
    refine settle_cases (p := fun m' => m.MapsChange _ m'.maps) (.same _) fun _ _ h => ?_
    obtain ⟨id, map, hm, hn, rfl⟩ := mapDelete_eq_ok h
    exact .delete hm hn
  all_goals
    rw [f nofun nofun nofun]
    exact .same _

-- All maps of a machine.
def MapsWellFormed (m : Machine) : Prop :=
  ∀ id map, m.maps.get? id = some map → map.WellFormed

theorem MapsWellFormed.answer (w : m.MapsWellFormed) (r : Request) :
    (m.answer r).2.MapsWellFormed := by
  have c := m.mapsChange r
  unfold MapsWellFormed
  generalize (m.answer r).2.maps = maps at c
  cases c
  case same      => exact w
  case create ha => exact Table.forall_get?_insert w (wellFormed_newMap ha)
  case update hm hs hk hv ha =>
    have hv := (length_of_storedValue hs).trans hv
    exact Table.forall_get?_insert w <| (w _ _ (mapAt_eq_ok hm).right).insert hk hv ha
  case delete hm hn =>
    exact Table.forall_get?_insert w <| (w _ _ (mapAt_eq_ok hm).right).erase hn _

end Machine

end EbpfManager
