import EbpfManager.Proofs.Entries.Indices

namespace EbpfManager

-- An array with one value for each index.
structure SlotArray where
  kind  : MapKind
  count : Nat
  form  : ValueForm
  slots : Fin count → Bytes

namespace SlotArray

-- The slot that a key names.
def index (a : SlotArray) (key : Datum) : Except Refusal (Fin a.count) := do
  let bytes ← (key.encode 4).mapError .badKey
  if h : Bytes.toNat bytes < a.count then return ⟨Bytes.toNat bytes, h⟩
  else throw (.outOfRange (Bytes.toNat bytes) a.count)

def encodeValue (a : SlotArray) (value : Datum) : Except Refusal Bytes :=
  (a.form.encode value).mapError .badValue

def zeros (a : SlotArray) : SlotArray :=
  { a with slots := fun _ => List.replicate a.form.size 0 }

def set (a : SlotArray) (i : Fin a.count) (value : Bytes) : SlotArray :=
  { a with slots := Function.update a.slots i value }

-- All slots are there and stay there.
def call (a : SlotArray) : EntryCall → Except Refusal (Option Bytes × SlotArray)
  | .insert key value => do
    let _ ← a.index key
    let _ ← a.encodeValue value
    throw .present
  | .update key value | .upsert key value => do
    let i ← a.index key
    let value ← a.encodeValue value
    return (none, a.set i value)
  | .delete _ => throw (.undeletable a.kind)
  | .lookup key => do
    let i ← a.index key
    return (some (a.slots i), a)

end SlotArray

namespace KernelMap

variable {map map' : KernelMap}

def slotArray (map : KernelMap) : SlotArray where
  kind    := map.kind
  count   := map.info.maxEntries.toNat
  form    := map.form
  slots i := (map.entries.get? (Bytes.ofNat 4 i)).getD []

-- Arrays that have a value for each index.
structure Filled (map : KernelMap) : Prop where
  isArray : map.kind.isArray
  keySize : map.info.keySize.toNat = 4
  slot {key} : key.length = 4 → Bytes.toNat key < map.info.maxEntries.toNat → map.entries.contains key

theorem WellFormed.filled (w : map.WellFormed) (hs : map.Slotted) : map.Filled where
  isArray := hs.left
  keySize := w.keySize_of_isArray hs.left
  slot hl hi := by
    obtain ⟨value, hg⟩ := w.slot hs hl hi
    simp [Table.contains, hg]

namespace Filled

variable (f : map.Filled)

include f

theorem insert (key value : Bytes) : Filled { map with entries := map.entries.insert key value } where
  isArray := f.isArray
  keySize := f.keySize
  slot {k} hl hi := by
    have hk := f.slot hl hi
    rw [Table.contains, Table.get?_insert]
    split
    case isTrue  => rfl
    case isFalse => exact hk

theorem call {c : EntryCall} {value : Option Bytes} (h : map.call c = .ok (value, map')) : map'.Filled := by
  obtain rfl | ⟨key, value, rfl⟩ | ⟨hn, _⟩ := call_eq_ok h
  case inl     => exact f
  case inr.inl => exact f.insert key value
  case inr.inr => exact absurd f.isArray hn

-- A key of an array is the number of a slot.
theorem encodeKey (key : Datum) :
    map.encodeKey key = (map.slotArray.index key).map fun i => Bytes.ofNat 4 i.val := by
  unfold KernelMap.encodeKey SlotArray.index slotArray
  rw [f.keySize]
  cases he : key.encode 4
  case error => rfl
  case ok bytes =>
    have hb : Bytes.ofNat 4 (Bytes.toNat bytes) = bytes := Datum.length_of_encode he ▸ Bytes.ofNat_toNat bytes
    by_cases hi : Bytes.toNat bytes < map.info.maxEntries.toNat
    case pos => simp [f.isArray, hi, Except.mapError, bind, Except.bind, Except.map, pure, Except.pure, hb]
    case neg => simp [f.isArray, hi, Except.mapError, bind, Except.bind, Except.map, throw, throwThe,
      MonadExceptOf.throw]

omit f in
theorem toNat_ofNat_slot (i : Fin map.slotArray.count) : Bytes.toNat (Bytes.ofNat 4 i) = i := by
  have hi : (i : Nat) < Bytes.limit 4 := i.isLt.trans map.info.maxEntries.toNat_lt
  rw [Bytes.toNat_ofNat, Nat.mod_eq_of_lt hi]

theorem contains (i : Fin map.slotArray.count) : map.entries.contains (Bytes.ofNat 4 i) :=
  f.slot (Bytes.length_ofNat ..) ((toNat_ofNat_slot i).symm ▸ i.isLt)

theorem get? (i : Fin map.slotArray.count) :
    map.entries.get? (Bytes.ofNat 4 i) = some (map.slotArray.slots i) := by
  obtain ⟨value, hg⟩ := Option.isSome_iff_exists.mp (f.contains i)
  simp [slotArray, hg]

omit f in
theorem slotArray_insert (i : Fin map.slotArray.count) (value : Bytes) :
    { map with entries := map.entries.insert (Bytes.ofNat 4 i) value }.slotArray = map.slotArray.set i value := by
  have hs (j : Fin map.slotArray.count) :
      ((map.entries.insert (Bytes.ofNat 4 i) value).get? (Bytes.ofNat 4 j)).getD [] =
        Function.update map.slotArray.slots i value j := by
    rw [Table.get?_insert, Function.update_apply]
    by_cases hj : j = i
    case pos => rw [if_pos (congrArg (fun i : Fin _ => Bytes.ofNat 4 i) hj.symm), if_pos hj, Option.getD_some]
    case neg =>
      have hne : Bytes.ofNat 4 i ≠ Bytes.ofNat 4 j := fun he =>
        hj <| Fin.ext <| by rw [← toNat_ofNat_slot j, ← he, toNat_ofNat_slot]
      rw [if_neg hne, if_neg hj]
      rfl
  exact congrArg (fun slots => { map.slotArray with slots }) (funext hs)

-- Each way of writing to a slot, which is there.
theorem write (key value : Datum) (flags : UpdateFlags) :
    (map.write key value flags).map (fun (answer, map') => (answer, map'.slotArray)) = (do
      let i ← map.slotArray.index key
      let value ← map.slotArray.encodeValue value
      if flags = UpdateFlags.mustNotExist then throw .present else return (none, map.slotArray.set i value)) := by
  have hv : map.slotArray.encodeValue value = map.encodeValue value := rfl
  unfold KernelMap.write
  rw [f.encodeKey, hv]
  cases map.slotArray.index key
  case error => rfl
  case ok i =>
    cases map.encodeValue value
    case error => rfl
    case ok value =>
      have hc := f.contains i
      by_cases hf : flags = UpdateFlags.mustNotExist <;>
        simp [bind, Except.bind, pure, Except.pure, Except.map, throw, throwThe, MonadExceptOf.throw, store, hc, hf,
          slotArray_insert]

theorem slotArray_call (c : EntryCall) :
    map.slotArray.call c = (map.call c).map fun (answer, map') => (answer, map'.slotArray) := by
  cases c
  case insert key value => exact (f.write key value UpdateFlags.mustNotExist).symm
  case update key value => exact (f.write key value UpdateFlags.mustExist).symm
  case upsert key value => exact (f.write key value UpdateFlags.any).symm
  case delete key =>
    simp only [SlotArray.call, KernelMap.call, if_pos f.isArray]
    rfl
  case lookup key =>
    simp only [SlotArray.call, KernelMap.call, f.encodeKey]
    cases map.slotArray.index key
    case error => rfl
    case ok i =>
      simp only [Except.map, bind, Except.bind, f.get? i]
      rfl

end Filled

section Creation

variable (w : map.WellFormed) (hs : map.Slotted)

include w hs

-- All slots are there from the beginning, and they are zero.
theorem filled_initialEntries : Filled { map with entries := Machine.initialEntries map.shape } where
  isArray := hs.left
  keySize := w.keySize_of_isArray hs.left
  slot {key} hl hi := by
    have hg : (Machine.initialEntries map.shape).get? key = _ := Machine.get?_initialEntries hs
    rw [Table.contains, hg, if_pos ⟨hl, hi⟩]
    rfl

theorem slotArray_initialEntries :
    { map with entries := Machine.initialEntries map.shape }.slotArray = map.slotArray.zeros := by
  have hz (i : Fin map.slotArray.count) :
      ((Machine.initialEntries map.shape).get? (Bytes.ofNat 4 i)).getD [] = List.replicate map.form.size 0 := by
    have hg : (Machine.initialEntries map.shape).get? (Bytes.ofNat 4 i) = _ := Machine.get?_initialEntries hs
    have hi : Bytes.toNat (Bytes.ofNat 4 i) < map.shape.maxEntries.toNat :=
      (Filled.toNat_ofNat_slot i).symm ▸ i.isLt
    rw [hg, if_pos ⟨Bytes.length_ofNat .., hi⟩, size_form w, w.valueLength]
    rfl
  exact congrArg (fun slots => { map.slotArray with slots }) (funext hz)

end Creation

end KernelMap

namespace Session

-- What there is to say of the calls about the entries of an array of the kernel in a session.
structure RefinesSlots (s : Session) (cs : List Command) (id : Nat) (map : KernelMap) : Prop where
  -- Each call came to what the array of slots says, which were all zero at first.
  calls : Explains SlotArray.call map.slotArray.zeros (s.history id cs) map.slotArray
  present {key} : map.entries.contains key ↔ key.length = 4 ∧ Bytes.toNat key < map.slotArray.count
  -- What the next command asks of the kernel concerns slots that are there.
  indexes {c} : c.Genuine →
    (∀ place key, c = .onMap place (.nextKey (some key)) → Bytes.toNat key < map.slotArray.count) →
    (s.runs cs).Indexes ((s.runs cs).run c).2 id map.slotArray.count

-- Whoever makes calls about the entries of a map that is an array, and through however many handles, is answered by
-- the array of slots, which are all zero at first; and the kernel is asked about indices of the array only.
theorem refines_slots (files : Files.Tree) {cs : List Command} (hc : ∀ c ∈ cs, c.Genuine ∧ c.Sized)
    {id : Nat} {map : KernelMap} (hm : ((fresh files).runs cs).host.machine.maps.get? id = some map)
    (hk : map.kind = .array ∨ map.kind = .perCpuArray) : (fresh files).RefinesSlots cs id map := by
  have f := faithful_runs (faithful_fresh files) hc
  have w : map.WellFormed := f.sane.maps id map hm
  have hs : map.Slotted := by
    obtain hk | hk := hk <;> simp [KernelMap.Slotted, hk, MapKind.isArray, MapKind.isHandleArray]
  have v : map.Verbatim := ⟨hs.right, by obtain hk | hk := hk <;> simp [hk]⟩
  refine ⟨?calls, ?present, ?indexes⟩
  case calls =>
    have x := explains_history (faithful_fresh files) hc rfl hm v
    have x := x.map (fun _ _ _ _ f h => KernelMap.Filled.call f h)
      (fun _ c f => KernelMap.Filled.slotArray_call f c) (KernelMap.filled_initialEntries w hs)
    rwa [KernelMap.slotArray_initialEntries w hs] at x
  case present =>
    intro key
    constructor
    case mp =>
      intro h
      obtain ⟨value, hg⟩ := Option.isSome_iff_exists.mp h
      exact ⟨(w.key hg).trans (w.keySize_of_isArray hs.left), w.index hs.left hg⟩
    case mpr =>
      rintro ⟨hl, hi⟩
      exact (w.filled hs).slot hl hi
  case indexes => exact fun hc hn => run_indexes f hc hm v hs.left hn

theorem refines_slots_of_counts :
    let counts : Map := { name := "counts", kind := .array, keySize := 4, valueSize := 1, maxEntries := 2 }
    let cs : List Command := [.newMap "counts" counts, .onMap (.own "counts") .create,
      .onMap (.own "counts") (.update (.integer 1) (.integer 7)),
      .onMap (.own "counts") (.insert (.integer 1) (.integer 8)), .onMap (.own "counts") (.lookup (.integer 2))]
    ∃ map, ((fresh .empty).runs cs).host.machine.maps.get? 1 = some map ∧
      map.entries.entries = [([0, 0, 0, 0], [0]), ([1, 0, 0, 0], [7])] ∧ (fresh .empty).RefinesSlots cs 1 map := by
  intro counts cs
  have he : (((fresh .empty).runs cs).host.machine.maps.get? 1).map (fun map => (map.kind, map.entries.entries)) =
      some (.array, [([0, 0, 0, 0], [0]), ([1, 0, 0, 0], [7])]) := by decide +kernel
  obtain ⟨map, hm, he⟩ := Option.map_eq_some_iff.mp he
  obtain ⟨hk, he⟩ := Prod.mk.inj he
  refine ⟨map, hm, he, refines_slots .empty ?_ hm (.inl hk)⟩
  refine List.forall_mem_cons.mpr ⟨⟨⟨rfl, nofun⟩, ⟨by decide, by decide, by decide⟩⟩, fun c h => ?_⟩
  simp only [List.mem_cons, List.not_mem_nil, or_false] at h
  obtain rfl | rfl | rfl | rfl := h
  all_goals exact ⟨⟨trivial, nofun⟩, trivial⟩

-- The key after the index 2 of an array with one slot.
theorem nextKey_not_indexes :
    let counts : Map := { name := "counts", kind := .array, keySize := 4, valueSize := 1, maxEntries := 1 }
    let s := (fresh .empty).runs [.newMap "counts" counts, .onMap (.own "counts") .create]
    let next : Command := .onMap (.own "counts") (.nextKey (some [2, 0, 0, 0]))
    (s.host.machine.maps.get? 1).map (fun map => (map.kind, map.info.maxEntries)) = some (.array, 1) ∧
      next.Genuine ∧ ¬s.Indexes (s.run next).2 1 1 := by
  intro counts s next
  refine ⟨by decide +kernel, ⟨trivial, nofun⟩, fun ⟨calls, he, hx⟩ => ?_⟩
  have hl : (s.run next).2.host.calls.map (·.request.keyed?) =
      s.host.calls.map (·.request.keyed?) ++ [some (3, [2, 0, 0, 0])] := by decide +kernel
  rw [he, List.map_append] at hl
  have hm : some (3, [2, 0, 0, 0]) ∈ calls.map (·.request.keyed?) :=
    List.append_cancel_left hl ▸ List.mem_singleton_self _
  obtain ⟨call, hc, hk⟩ := List.mem_map.mp hm
  exact absurd (hx call hc _ _ hk (by decide +kernel)) (by decide)

end Session

end EbpfManager
