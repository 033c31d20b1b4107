import EbpfManager.Proofs.Entries.History
import Mathlib.Data.Finmap

namespace EbpfManager

-- A finite map from keys to values, with room for so many entries.
structure Dictionary where
  keySize  : Nat
  form     : ValueForm
  capacity : Nat
  entries  : Finmap fun _ : Bytes => Bytes

namespace Dictionary

def encodeKey (d : Dictionary) (key : Datum) : Except Refusal Bytes :=
  (key.encode d.keySize).mapError .badKey

def encodeValue (d : Dictionary) (value : Datum) : Except Refusal Bytes :=
  (d.form.encode value).mapError .badValue

-- An entry is set, if there is room for it.
def store (d : Dictionary) (key value : Bytes) : Except Refusal (Option Bytes × Dictionary) :=
  if key ∉ d.entries ∧ d.capacity ≤ d.entries.keys.card then .error .full
  else .ok (none, { d with entries := d.entries.insert key value })

def call (d : Dictionary) : EntryCall → Except Refusal (Option Bytes × Dictionary)
  | .insert key value => do
    let key ← d.encodeKey key
    let value ← d.encodeValue value
    if key ∈ d.entries then throw .present else d.store key value
  | .update key value => do
    let key ← d.encodeKey key
    let value ← d.encodeValue value
    if key ∈ d.entries then d.store key value else throw .absent
  | .upsert key value => do
    let key ← d.encodeKey key
    let value ← d.encodeValue value
    d.store key value
  | .delete key => do
    let key ← d.encodeKey key
    if key ∈ d.entries then return (none, { d with entries := d.entries.erase key }) else throw .absent
  | .lookup key => do
    let key ← d.encodeKey key
    match d.entries.lookup key with
    | some value => return (some value, d)
    | none       => throw .absent

variable {d d' : Dictionary} {key value : Datum} {answer : Option Bytes}

theorem store_eq_ok {key value : Bytes} (h : d.store key value = .ok (answer, d')) :
    d' = { d with entries := d.entries.insert key value } := by
  unfold store at h
  split at h <;> cases h
  rfl

-- The three calls that write.
theorem entries_of_write {c : EntryCall}
    (hc : c = .insert key value ∨ c = .update key value ∨ c = .upsert key value)
    (h : d.call c = .ok (answer, d')) : ∃ k v, d.encodeKey key = .ok k ∧ d.encodeValue value = .ok v ∧
      d' = { d with entries := d.entries.insert k v } := by
  obtain rfl | rfl | rfl := hc
  all_goals
    obtain ⟨k, hk, h⟩ := bind_eq_ok.mp h
    obtain ⟨v, hv, h⟩ := bind_eq_ok.mp h
    refine ⟨k, v, hk, hv, ?_⟩
  case inl =>
    split at h
    case isTrue  => cases h
    case isFalse => exact store_eq_ok h
  case inr.inl =>
    split at h
    case isTrue  => exact store_eq_ok h
    case isFalse => cases h
  case inr.inr => exact store_eq_ok h

-- What is found under a key depends on its entry only.
theorem call_lookup (d : Dictionary) (key : Datum) :
    (d.call (.lookup key)).map Prod.fst =
      d.encodeKey key >>= fun k => (d.entries.lookup k).elim (.error .absent) fun value => .ok (some value) := by
  simp only [call, bind, Except.bind]
  cases d.encodeKey key
  case error => rfl
  case ok k =>
    simp only
    cases d.entries.lookup k <;> rfl

-- What has been written is found under its key, and what is found under other keys stays the same.
theorem lookup_of_write {c : EntryCall} (hc : c = .insert key value ∨ c = .update key value ∨ c = .upsert key value)
    (h : d.call c = .ok (answer, d')) : ∃ bytes, d.encodeValue value = .ok bytes ∧
      d'.call (.lookup key) = .ok (some bytes, d') ∧ ∀ key', d.encodeKey key' ≠ d.encodeKey key →
        (d'.call (.lookup key')).map Prod.fst = (d.call (.lookup key')).map Prod.fst := by
  obtain ⟨k, v, hk, hv, rfl⟩ := entries_of_write hc h
  refine ⟨v, hv, ?_, fun key' hne => ?_⟩
  case refine_1 =>
    have hk' : ({ d with entries := d.entries.insert k v } : Dictionary).encodeKey key = .ok k := hk
    simp only [call, hk', bind, Except.bind, Finmap.lookup_insert]
    rfl
  case refine_2 =>
    have he : ({ d with entries := d.entries.insert k v } : Dictionary).encodeKey key' = d.encodeKey key' := rfl
    rw [call_lookup, call_lookup, he]
    cases hk' : d.encodeKey key'
    case error => rfl
    case ok k' =>
      have hne : k' ≠ k := fun he => hne (by rw [hk', hk, he])
      simp only [bind, Except.bind, Finmap.lookup_insert_of_ne _ hne]

end Dictionary

namespace Table

variable {κ ν : Type} [DecidableEq κ]

def toFinmap (t : Table κ ν) : Finmap fun _ : κ => ν :=
  (t.entries.map fun e => (⟨e.1, e.2⟩ : Σ _ : κ, ν)).toFinmap

variable {t : Table κ ν} {k : κ}

theorem lookup_toFinmap : t.toFinmap.lookup k = t.get? k := by
  rw [toFinmap, Finmap.dlookup_list_toFinmap]
  obtain ⟨entries⟩ := t
  induction entries
  case nil => rfl
  case cons e entries ih =>
    rw [get?_cons, ← ih, List.map_cons]
    by_cases hk : e.1 = k
    case pos =>
      subst hk
      rw [if_pos rfl, List.dlookup_cons_eq]
    case neg =>
      rw [if_neg hk]
      exact List.dlookup_cons_ne _ (⟨e.1, e.2⟩ : Σ _ : κ, ν) (Ne.symm hk)

theorem mem_toFinmap_iff : k ∈ t.toFinmap ↔ t.contains k := by
  rw [Finmap.mem_iff, contains, Option.isSome_iff_exists]
  simp only [lookup_toFinmap]

theorem toFinmap_erase : (t.erase k).toFinmap = t.toFinmap.erase k := by
  refine Finmap.ext_lookup fun k' => ?_
  rw [lookup_toFinmap, get?_erase]
  split
  case isTrue h  => rw [← h, Finmap.lookup_erase]
  case isFalse h => rw [Finmap.lookup_erase_ne (Ne.symm h), lookup_toFinmap]

theorem toFinmap_insert [LT κ] [DecidableLT κ] (v : ν) : (t.insert k v).toFinmap = t.toFinmap.insert k v := by
  refine Finmap.ext_lookup fun k' => ?_
  rw [lookup_toFinmap, get?_insert]
  split
  case isTrue h  => rw [← h, Finmap.lookup_insert]
  case isFalse h => rw [Finmap.lookup_insert_of_ne _ (Ne.symm h), lookup_toFinmap]

theorem card_keys_toFinmap [LT κ] [IsStrictTotalOrder κ (· < ·)] (s : t.Sorted) :
    t.toFinmap.keys.card = t.size := by
  have hk : t.toFinmap.keys = t.keys.toFinset := by
    ext k
    rw [Finmap.mem_keys, mem_toFinmap_iff, List.mem_toFinset, contains_iff]
  rw [hk, List.toFinset_card_of_nodup s.nodup_keys]
  exact List.length_map _

end Table

namespace KernelMap

variable {map : KernelMap}

def dictionary (map : KernelMap) : Dictionary where
  keySize  := map.info.keySize.toNat
  form     := map.form
  capacity := map.info.maxEntries.toNat
  entries  := map.entries.toFinmap

theorem dictionary_encodeKey (hn : ¬map.kind.isArray) (key : Datum) :
    map.dictionary.encodeKey key = map.encodeKey key := by
  unfold Dictionary.encodeKey encodeKey dictionary
  cases key.encode map.info.keySize.toNat <;> simp [hn, Except.mapError]

theorem dictionary_insert (key value : Bytes) :
    { map with entries := map.entries.insert key value }.dictionary =
      { map.dictionary with entries := map.dictionary.entries.insert key value } := by
  simp only [dictionary, form, Table.toFinmap_insert]

-- Whether the dictionary has room is a question of how many entries there are.
theorem dictionary_store (s : map.entries.Sorted) (key value : Bytes) :
    map.dictionary.store key value =
      if ¬map.entries.contains key ∧ map.info.maxEntries.toNat ≤ map.entries.size then .error .full
      else .ok (none, { map with entries := map.entries.insert key value }.dictionary) := by
  unfold Dictionary.store
  rw [dictionary_insert]
  simp only [dictionary, Table.mem_toFinmap_iff, Table.card_keys_toFinmap s]

-- What the kernel is asked for with a write, in terms of the dictionary.
theorem dictionary_write (hn : ¬map.kind.isArray) {flags : UpdateFlags}
    {next : Bytes → Bytes → Except Refusal (Option Bytes × Dictionary)}
    (h : ∀ key value, next key value =
      (map.store key value flags).map fun map' => (none, map'.dictionary)) (key value : Datum) :
    (do let key ← map.dictionary.encodeKey key
        let value ← map.dictionary.encodeValue value
        next key value) =
      (map.write key value flags).map fun (value, map') => (value, map'.dictionary) := by
  have hv : map.dictionary.encodeValue value = map.encodeValue value := rfl
  rw [dictionary_encodeKey hn, hv]
  unfold write
  cases map.encodeKey key
  case error => rfl
  case ok key =>
    cases map.encodeValue value
    case error => rfl
    case ok value =>
      simp only [bind, Except.bind, h]
      cases map.store key value flags <;> rfl

theorem dictionary_call (hn : ¬map.kind.isArray) (s : map.entries.Sorted) (c : EntryCall) :
    map.dictionary.call c = (map.call c).map fun (value, map') => (value, map'.dictionary) := by
  have hm (key : Bytes) : key ∈ map.dictionary.entries ↔ map.entries.contains key :=
    Table.mem_toFinmap_iff
  cases c
  case insert key value =>
    refine dictionary_write hn (fun key value => ?_) key value
    rw [dictionary_store s]
    by_cases hc : map.entries.contains key <;> by_cases hf : map.info.maxEntries.toNat ≤ map.entries.size <;>
      simp [store, hm, hc, hf, UpdateFlags.mustExist, UpdateFlags.mustNotExist, Except.map, throw, throwThe,
        MonadExceptOf.throw]
  case update key value =>
    refine dictionary_write hn (fun key value => ?_) key value
    rw [dictionary_store s]
    by_cases hc : map.entries.contains key <;> by_cases hf : map.info.maxEntries.toNat ≤ map.entries.size <;>
      simp [store, hm, hc, hf, UpdateFlags.mustExist, UpdateFlags.mustNotExist, Except.map, throw, throwThe,
        MonadExceptOf.throw]
  case upsert key value =>
    refine dictionary_write hn (fun key value => ?_) key value
    rw [dictionary_store s]
    by_cases hc : map.entries.contains key <;> by_cases hf : map.info.maxEntries.toNat ≤ map.entries.size <;>
      simp [store, hc, hf, UpdateFlags.mustExist, UpdateFlags.mustNotExist, UpdateFlags.any, Except.map]
  case delete key =>
    simp only [Dictionary.call, call, dictionary_encodeKey hn, if_neg hn]
    cases map.encodeKey key
    case error => rfl
    case ok key =>
      have he : { map.dictionary with entries := map.dictionary.entries.erase key } =
          { map with entries := map.entries.erase key }.dictionary := by
        simp only [dictionary, Table.toFinmap_erase]
        rfl
      simp only [bind, Except.bind, hm, he]
      split <;> rfl
  case lookup key =>
    simp only [Dictionary.call, call, dictionary_encodeKey hn]
    cases map.encodeKey key
    case error => rfl
    case ok key =>
      have hl : map.dictionary.entries.lookup key = map.entries.get? key := Table.lookup_toFinmap
      simp only [bind, Except.bind, hl]
      cases map.entries.get? key <;> rfl

-- What makes a map a dictionary stays.
theorem dictionary_keep {map' : KernelMap} {c : EntryCall} {value : Option Bytes}
    (k : ¬map.kind.isArray ∧ map.entries.Sorted) (h : map.call c = .ok (value, map')) :
    ¬map'.kind.isArray ∧ map'.entries.Sorted := by
  refine ⟨?_, sorted_of_call k.right h⟩
  obtain ⟨_, rfl⟩ := entries_of_call h
  exact k.left

end KernelMap

namespace Session

-- What there is to say of the calls about the entries of one map of the kernel in a session.
structure RefinesDictionary (s : Session) (cs : List Command) (id : Nat) (map : KernelMap) : Prop where
  -- Each call came to what the dictionary says, which was empty at first.
  calls : Explains Dictionary.call { map.dictionary with entries := ∅ } (s.history id cs) map.dictionary
  key {key} : key ∈ map.dictionary.entries → key.length = map.dictionary.keySize
  value {key value} : map.dictionary.entries.lookup key = some value →
    value.length = map.dictionary.form.size
  room : map.dictionary.entries.keys.card ≤ map.dictionary.capacity
  -- What the next call writes can be looked up under its key, and nothing has changed for other keys.
  written {c key value answer d} : c = .insert key value ∨ c = .update key value ∨ c = .upsert key value →
    map.dictionary.call c = .ok (answer, d) →
    ∃ bytes, map.dictionary.encodeValue value = .ok bytes ∧ d.call (.lookup key) = .ok (some bytes, d) ∧
      ∀ key', map.dictionary.encodeKey key' ≠ map.dictionary.encodeKey key →
        (d.call (.lookup key')).map Prod.fst = (map.dictionary.call (.lookup key')).map Prod.fst
  -- Nor has any other map changed.
  others {c id'} : (s.runs cs).Calls id c → id' ≠ id →
    ((s.runs cs).run c).2.host.machine.maps.get? id' = (s.runs cs).host.machine.maps.get? id'

-- Whoever makes calls about the entries of a map that is no array, and through however many handles, is answered by
-- a dictionary.
theorem refines_dictionary (files : Files.Tree) {cs : List Command} (hc : ∀ c ∈ cs, c.Genuine ∧ c.Sized)
    {id : Nat} {map : KernelMap} (hm : ((fresh files).runs cs).host.machine.maps.get? id = some map)
    (hn : ¬map.kind.isArray) (hh : map.kind ≠ .hashOfMaps) : (fresh files).RefinesDictionary cs id map := by
  have f := faithful_runs (faithful_fresh files) hc
  have w : map.WellFormed := f.sane.maps id map hm
  have hs : ¬(map.kind.isArray ∧ ¬map.kind.isHandleArray) := fun h => hn h.left
  have v : map.Verbatim := ⟨by cases hk : map.kind <;> simp_all [MapKind.isArray, MapKind.isHandleArray], hh⟩
  refine ⟨?calls, ?key, ?value, ?room, ?written, ?others⟩
  case calls =>
    have x := explains_history (faithful_fresh files) hc rfl hm v
    have he : Machine.initialEntries map.shape = .empty := if_neg hs
    rw [he] at x
    exact x.map (fun _ _ _ _ => KernelMap.dictionary_keep)
      (fun _ c k => KernelMap.dictionary_call k.left k.right c) ⟨hn, Table.sorted_empty⟩
  case key =>
    intro key h
    obtain ⟨value, hg⟩ := Option.isSome_iff_exists.mp (Table.mem_toFinmap_iff.mp h)
    exact w.key hg
  case value =>
    intro key value h
    have hg : map.entries.get? key = some value := Table.lookup_toFinmap.symm.trans h
    exact (w.value hg).trans (KernelMap.size_form w).symm
  case room => exact (Table.card_keys_toFinmap w.sorted).trans_le (w.room hn)
  case written => exact Dictionary.lookup_of_write
  case others =>
    rintro c id' ⟨place, command, m, rfl, hp, ho, he⟩ hne
    have ho' : ¬((fresh files).runs cs).IsOpenOn m id' := fun ho' => hne (isOpenOn_unique ho' ho)
    simp only [run, host_onMap hp]
    exact get?_of_not_isOpenOn f.sane ho' he.accesses

-- A map with room for one entry, and a second way to it.
theorem refines_dictionary_of_pinned :
    let counts : Map := { name := "counts", kind := .hash, keySize := 4, valueSize := 1, maxEntries := 1 }
    let cs : List Command := [.newMap "counts" counts, .onMap (.own "counts") .create,
      .makeDirectory ⟨"pins"⟩, .onMap (.own "counts") (.pin ⟨"pins/counts"⟩),
      .openMap "again" ⟨"pins/counts"⟩,
      .onMap (.own "counts") (.insert (.integer 7) (.integer 1)),
      .onMap (.own "again") (.update (.integer 7) (.integer 2)),
      .onMap (.own "again") (.upsert (.integer 8) (.integer 2)), .onMap (.own "counts") (.lookup (.integer 7))]
    ∃ map, ((fresh .empty).runs cs).host.machine.maps.get? 1 = some map ∧
      map.entries.entries = [([7, 0, 0, 0], [2])] ∧ (fresh .empty).RefinesDictionary cs 1 map := by
  intro counts cs
  have he : (((fresh .empty).runs cs).host.machine.maps.get? 1).map (fun map => (map.kind, map.entries.entries)) =
      some (.hash, [([7, 0, 0, 0], [2])]) := by decide +kernel
  obtain ⟨map, hm, he⟩ := Option.map_eq_some_iff.mp he
  obtain ⟨hk, he⟩ := Prod.mk.inj he
  refine ⟨map, hm, he, refines_dictionary .empty ?_ hm (by simp [hk, MapKind.isArray]) (by simp [hk])⟩
  refine List.forall_mem_cons.mpr ⟨⟨⟨rfl, nofun⟩, ⟨by decide, by decide, by decide⟩⟩, fun c h => ?_⟩
  simp only [List.mem_cons, List.not_mem_nil, or_false] at h
  obtain rfl | rfl | rfl | rfl | rfl | rfl | rfl | rfl := h
  all_goals exact ⟨⟨trivial, nofun⟩, trivial⟩

end Session

end EbpfManager
