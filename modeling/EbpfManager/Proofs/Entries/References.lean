import EbpfManager.Proofs.Entries.Lookups
import EbpfManager.Proofs.Entries.Persistence
import EbpfManager.Proofs.Integers
import EbpfManager.Proofs.Kernel.References

namespace EbpfManager

variable {object : Nat → KernelObject} {id n : Nat} {key : Bytes}

namespace Datum

-- The number that a value spells where the number of a handle is expected.
def handle? (value : Datum) : Option Fd :=
  (value.encode 4).toOption.map Bytes.toInt

variable {value : Datum} {fd : Fd}

theorem handle?_eq_some : value.handle? = some fd ↔
    ∃ bytes, value.encode 4 = .ok bytes ∧ Bytes.toInt bytes = fd := by
  unfold handle?
  cases value.encode 4 <;> simp [Except.toOption]

-- An integer is this number, since numbers of handles are not negative.
theorem eq_of_handle? {v fd : Int} (h : (integer v).handle? = some fd) (h0 : 0 ≤ fd) : v = fd := by
  obtain ⟨bytes, he, rfl⟩ := handle?_eq_some.mp h
  rw [encode, encodeInteger, if_pos (by decide)] at he
  split at he
  case isFalse => cases he
  case isTrue hf =>
    cases he
    have hl : Bytes.limit 4 = 4294967296 := rfl
    rw [Bytes.toInt_ofInt, hl] at h0 ⊢
    rw [Fits, hl] at hf
    rw [Int.bmod] at h0 ⊢
    omega

end Datum

namespace KernelMap

variable {map : KernelMap}

theorem WellFormed.encodeValue (w : map.WellFormed) (hk : map.kind.object? = some object) (value : Datum) :
    map.encodeValue value = (value.encode 4).mapError .badValue := by
  simp [KernelMap.encodeValue, form, ValueForm.encode, MapKind.isPerCpu_of_object? hk,
    (w.valueLength_of_object? hk).left]

theorem encode_of_encodeKey {datum : Datum} (h : map.encodeKey datum = .ok key) :
    datum.encode map.info.keySize.toNat = .ok key := by
  unfold KernelMap.encodeKey at h
  split at h
  case h_1 => cases h
  case h_2 he => split at h <;> cases h; exact he

-- Plain writes to an array are taken for all indices.
theorem WellFormed.admits_any (w : map.WellFormed) (ha : map.kind.isArray)
    (hl : key.length = map.info.keySize.toNat) (hi : Bytes.toNat key < map.info.maxEntries.toNat) :
    Machine.admits map key UpdateFlags.any = .ok () := by
  have hl : key.take 4 = key := List.take_of_length_le (by simp [hl, w.keySize_of_isArray ha])
  have hf : UpdateFlags.any ≠ UpdateFlags.mustNotExist := by decide
  simp [Machine.admits, ha, hl, not_le.mpr hi, hf]

end KernelMap

-- An entry has become the number of the object that a handle is open on.
def Machine.Stores (m m' : Machine) (id : Nat) (map : KernelMap) (object : Nat → KernelObject)
    (datum value : Datum) : Prop :=
  ∃ key fd n, map.encodeKey datum = .ok key ∧ value.handle? = some fd ∧ m.handles.get? fd = some (object n) ∧
    m' = m.setMap id { map with entries := map.entries.insert key (Bytes.ofNat 4 n) }

theorem Host.Leads.mapsRefer {p : Request → Prop} {h h' : Host} (l : h.Leads p h') (o : h.Sane)
    (w : h.machine.MapsRefer) : h'.machine.MapsRefer :=
  (l.keep_consistent (k := fun m => m.MapsWellFormed ∧ m.MapsRefer) o
    (fun _ r c _ ⟨f, w⟩ => ⟨f.answer r, w.answer f c r⟩)
    (fun _ files c ⟨f, w⟩ => ⟨f, fun id map hm => (w id map hm).keeps (c.setFiles files).keeps⟩)
      ⟨o.maps, w⟩).right

namespace Map.Sees

variable {m : Map} {map : KernelMap} {h : Host} {datum value : Datum} {flags : UpdateFlags} {fd : Fd}

-- Who succeeds has given the number of a handle on such an object. Who fails has changed nothing.
theorem write_object (o : m.Sees id map h) (hk : map.kind.object? = some object) :
    Ends (m.write datum value flags) h (fun _ h' => h.machine.Stores h'.machine id map object datum value)
      fun _ h' => h'.machine = h.machine := by
  have still := write_still (m := m) datum value flags (.refl o.sane.faultless)
  suffices w : Ends (m.write datum value flags) h
      (fun _ h' => h.machine.Stores h'.machine id map object datum value) fun _ _ => True from
    (w.and still).imp (fun _ _ => And.left) fun _ _ w => w.right.machine
  obtain ⟨fd, hm, ho⟩ := o.handle
  unfold Map.write
  simp only [liveFd, hm, ends_bind, ends_except, encodeKey_eq o.mirrors o.wellFormed,
    encodeValue_eq o.mirrors o.wellFormed, o.wellFormed.encodeValue hk]
  cases hkey : map.encodeKey datum
  case error => trivial
  case ok key =>
    cases hv : value.encode 4
    case error => trivial
    case ok bytes =>
      simp only [Except.mapError, ends_ite, ends_bind, ends_throw, implies_true, true_and]
      intro _
      rw [ends_perform, ends_accept]
      split
      case h_2 => trivial
      case h_1 hr =>
        rw [o.sane.reply] at hr
        rw [o.sane.machine]
        obtain ⟨id', map', stored, hg, hs, _, _, _, he⟩ := Machine.mapUpdate_eq_ok (Machine.eq_ok_of_settle hr)
        cases (Machine.mapAt_eq ho o.there).symm.trans hg
        obtain ⟨n, hn, rfl⟩ := (Machine.storedValue_eq_ok hk (Datum.length_of_encode hv)).mp hs
        exact ⟨key, _, n, hkey, Datum.handle?_eq_some.mpr ⟨bytes, hv, rfl⟩, hn, he⟩

-- Keys that are refused are refused whatever is to be written.
theorem write_of_encodeKey_error {r : Refusal} (o : m.Sees id map h) (he : map.encodeKey datum = .error r) :
    Ends (m.write datum value flags) h (fun _ _ => False) fun e _ => e = r.error m.name := by
  obtain ⟨fd, hm, ho⟩ := o.handle
  unfold Map.write
  simp only [liveFd, hm, ends_bind, ends_except, encodeKey_eq o.mirrors o.wellFormed, he]
  rfl

section Arrays

variable {bytes : Bytes}

-- A slot that is to be new is refused, as all slots are there.
theorem insert_array (o : m.Sees id map h) (hk : map.kind.object? = some object) (ha : map.kind.isArray)
    (hkey : map.encodeKey datum = .ok key) (hv : value.encode 4 = .ok bytes) :
    Ends (m.insert datum value) h (fun _ _ => False) fun e _ => e = .keyExists m.name := by
  obtain ⟨fd, hm, ho⟩ := o.handle
  have hh : m.kind.isHandleArray := by rw [o.mirrors.kind, MapKind.isHandleArray_of_object? hk, ha]
  unfold Map.insert Map.write
  simp only [liveFd, hm, ends_bind, ends_except, encodeKey_eq o.mirrors o.wellFormed,
    encodeValue_eq o.mirrors o.wellFormed, o.wellFormed.encodeValue hk, hkey, hv, hh]
  simp [Except.mapError]

theorem write_array (o : m.Sees id map h) (hk : map.kind.object? = some object) (ha : map.kind.isArray)
    (hf : flags ≠ UpdateFlags.mustNotExist) (hkey : map.encodeKey datum = .ok key) (hv : value.handle? = some fd)
    (hn : h.machine.handles.get? fd = some (object n)) :
    Ends (m.write datum value flags) h (fun _ _ => True) fun _ _ => False := by
  obtain ⟨bytes, hb, rfl⟩ := Datum.handle?_eq_some.mp hv
  obtain ⟨fd, hm, ho⟩ := o.handle
  obtain ⟨hl, hi⟩ := KernelMap.encodeKey_eq_ok hkey
  have hh : m.kind.isHandleArray := by rw [o.mirrors.kind, MapKind.isHandleArray_of_object? hk, ha]
  have hs := (Machine.storedValue_eq_ok hk (Datum.length_of_encode hb)).mpr ⟨n, hn, rfl⟩
  have hw : ¬(key.length ≠ map.info.keySize.toNat ∨ bytes.length ≠ map.valueLength) := by
    simp [hl, Datum.length_of_encode hb, (o.wellFormed.valueLength_of_object? hk).right]
  unfold Map.write
  simp only [liveFd, hm, ends_bind, ends_except, encodeKey_eq o.mirrors o.wellFormed,
    encodeValue_eq o.mirrors o.wellFormed, o.wellFormed.encodeValue hk, hkey, hb, hf, Except.mapError,
    and_false, if_false]
  rw [ends_perform, ends_accept, o.sane.reply]
  simp only [Machine.answer, Machine.mapUpdate, Machine.mapAt_eq ho o.there, hs, bind, Except.bind, if_neg hw,
    if_pos hh, o.wellFormed.admits_any ha hl (hi ha)]
  trivial

theorem delete_array (o : m.Sees id map h) (ha : map.kind.isArray) :
    Ends (m.delete datum) h (fun _ _ => False) fun e _ => e = .unsupported .delete m.name map.kind := by
  obtain ⟨fd, hm, ho⟩ := o.handle
  simp [Map.delete, liveFd, hm, o.mirrors.kind, ha]

end Arrays

end Map.Sees

namespace MapCommand

-- The key and the value of a command that writes, and the key of one that looks for an entry.
def write? : MapCommand → Option (Datum × Datum)
  | insert key value | update key value | upsert key value => some (key, value)
  | _                                                      => none

def look? : MapCommand → Option Datum
  | lookup key | lookupInteger key | lookupText key => some key
  | _                                               => none

variable {c : MapCommand} {datum value : Datum} {map : KernelMap}

theorem run_of_write? (h : c.write? = some (datum, value)) :
    ∃ flags, c.run = ask (fun _ => .nothing) fun m => m.write datum value flags := by
  cases c <;> cases h <;> exact ⟨_, rfl⟩

theorem find?_of_look? {e : String → Error} (h : c.look? = some datum) (hp : map.kind.isPerCpu = false)
    (he : map.lookup datum = .error e) : map.find? c = some (.error e) := by
  cases c <;> cases h <;>
    simp [KernelMap.find?, KernelMap.lookupInteger, KernelMap.lookupText, hp, he, bind, Except.bind, Functor.map,
      Except.map]

end MapCommand

namespace Session

section

variable {s s₀ : Session} {place : MapRef} {m : Map} {map : KernelMap} {command : MapCommand} {datum value : Datum}

theorem Reached.keeps (r : s.Reached) : ∃ files : Files.Tree, Machine.Keeps { files } s.host.machine := by
  induction r
  case fresh files => exact ⟨files, .refl _⟩
  case run c hc r ih =>
    obtain ⟨files, k⟩ := ih
    exact ⟨files, k.trans ((leads_of_fair hc).keeps r.told.sane)⟩

-- Handles are counted from 3 on.
theorem Reached.le_of_handle {object : KernelObject} {fd : Fd} (r : s.Reached)
    (h : s.host.machine.handles.get? fd = some object) : 3 ≤ fd := by
  obtain ⟨files, k⟩ := r.keeps
  by_contra hlt
  cases k.handle (not_le.mp hlt) h

theorem Reached.mapsRefer (r : s.Reached) : s.host.machine.MapsRefer := by
  induction r
  case fresh => exact fun _ _ h => by cases h
  case run c hc r ih => exact (leads_of_fair hc).mapsRefer r.told.sane ih

theorem Spares.leads (u : s₀.Spares id key s) : s₀.host.Leads (fun _ => True) s.host := by
  induction u
  case refl             => exact .refl
  case run c hc _ _ ih => exact ih.trans (leads_of_fair hc)

namespace Opens

variable (o : s.Opens place m id)

include o

theorem run_of_ends {q : Map → Attempt Unit} {ok : Host → Prop} {fail : Error → Host → Prop}
    (hc : command.run = MapCommand.ask (fun _ => .nothing) q) (hq : Ends (q m) s.host (fun _ => ok) fail) :
    (s.run (.onMap place command)).1 = .done .nothing ∧ ok (s.run (.onMap place command)).2.host ∨
      ∃ e, (s.run (.onMap place command)).1 = .failed e ∧ fail e (s.run (.onMap place command)).2.host := by
  have hq := ends_iff_outcome.mp hq
  have hh : (s.onMap place command).2.host = _ := host_onMap o.there
  simp only [run, hh, hc, MapCommand.outcome_ask]
  simp only [onMap, o.there, hc, MapCommand.outcome_ask]
  split at hq
  case h_1 he => exact .inl ⟨by rw [he]; rfl, by rwa [he]⟩
  case h_2 e _ he => exact .inr ⟨e, by rw [he]; rfl, by rwa [he]⟩

end Opens

variable (r : s.Reached) (hm : s.host.machine.maps.get? id = some map) (hk : map.kind.object? = some object)

include r hm hk

theorem Opens.run_write (o : s.Opens place m id) (hw : command.write? = some (datum, value)) :
    (s.run (.onMap place command)).1 = .done .nothing ∧
        s.host.machine.Stores (s.run (.onMap place command)).2.host.machine id map object datum value ∨
      ∃ e, (s.run (.onMap place command)).1 = .failed e ∧
        (s.run (.onMap place command)).2.host.machine = s.host.machine := by
  obtain ⟨flags, hc⟩ := MapCommand.run_of_write? hw
  exact o.run_of_ends hc ((o.sees r.told hm).write_object hk)

-- What has been stored under a key is found later, through whichever map.
theorem found_of_spares {place' : MapRef} {m' : Map} {s' : Session}
    (hn : map.entries.get? key = some (Bytes.ofNat 4 n)) (hkey : map.encodeKey datum = .ok key)
    (u : s.Spares id key s') (o : s'.Opens place' m' id) :
    (s'.run (.onMap place' (.lookupInteger datum))).1 = .done (.number (n % Bytes.limit 4)) := by
  have f : Machine.Finds s.host.machine.maps id key (some (Bytes.ofNat 4 n)) :=
    ⟨fun h => by simp [hm] at h, fun h _ => by cases hm.symm.trans h; exact hn⟩
  obtain ⟨map', hm', hi', hk'⟩ := u.leads.info r.told.sane hm
  have hg : map'.entries.get? key = some (Bytes.ofNat 4 n) :=
    (u.finds r f).entry hm' (KernelMap.not_slotted_of_object? (hk' ▸ hk))
  have he : map'.encodeKey datum = .ok key := by
    rw [← hkey]
    simp only [KernelMap.encodeKey, hi', hk']
  have hx : map'.find? (.lookupInteger datum) = some (.ok (.number (n % Bytes.limit 4))) := by
    have hp := MapKind.isPerCpu_of_object? (hk' ▸ hk)
    have hw : Datum.IsIntegerWidth 4 := by decide
    simp [KernelMap.find?, KernelMap.lookupInteger, KernelMap.lookup, hp, he, hg, bind, Except.bind,
      Bytes.decodeUnsigned, hw, Bytes.toNat_ofNat, Except.mapError, Functor.map, Except.map]
  rw [o.run_find (u.reached r).told hm' hx]
  rfl

end

-- An array of handles in a session, and what is done to its slots through the maps that are open on it.
structure ReferenceArray (s : Session) (id : Nat) (map : KernelMap) (object : Nat → KernelObject) : Prop where
  -- A slot can be filled, whether it is empty or not, but an entry cannot be made or taken out.
  filled {place : MapRef} {m : Map} {command : MapCommand} {datum value : Datum} {key : Bytes} {fd : Fd} {n : Nat} :
    s.Opens place m id →
    command = .update datum value ∨ command = .upsert datum value → datum.encode 4 = .ok key →
    Bytes.toNat key < map.info.maxEntries.toNat → value.handle? = some fd →
    s.host.machine.handles.get? fd = some (object n) → (s.run (.onMap place command)).1 = .done .nothing
  present {place : MapRef} {m : Map} {datum value : Datum} {key bytes : Bytes} : s.Opens place m id →
    datum.encode 4 = .ok key → Bytes.toNat key < map.info.maxEntries.toNat → value.encode 4 = .ok bytes →
    (s.run (.onMap place (.insert datum value))).1 = .failed (.keyExists m.name)
  undeletable {place : MapRef} {m : Map} {datum : Datum} : s.Opens place m id →
    (s.run (.onMap place (.delete datum))).1 = .failed (.unsupported .delete m.name map.kind)
  -- Nothing is found in a slot that nobody has written to since the map was made.
  empty {s₀ : Session} {place : MapRef} {m : Map} {command : MapCommand} {datum : Datum} {key : Bytes} :
    s₀.Reached → s₀.host.machine.maps.get? id = none → s₀.Spares id key s →
    s.Opens place m id → command.look? = some datum → datum.encode 4 = .ok key →
    Bytes.toNat key < map.info.maxEntries.toNat → (s.run (.onMap place command)).1 = .failed (.notFound m.name)
  outside {place : MapRef} {m : Map} {command : MapCommand} {datum value : Datum} {key : Bytes} :
    s.Opens place m id → command.look? = some datum ∨ command.write? = some (datum, value) →
    datum.encode 4 = .ok key →
    map.info.maxEntries.toNat ≤ Bytes.toNat key → (s.run (.onMap place command)).1 =
      .failed (.keyOutOfRange m.name (Bytes.toNat key) map.info.maxEntries.toNat)

-- A map of handles in a session, and what is written to it through the maps that are open on it.
structure References (s : Session) (id : Nat) (map : KernelMap) (object : Nat → KernelObject) : Prop where
  -- Every value is the number of an object.
  there {key value : Bytes} : map.entries.get? key = some value →
    ∃ n, s.host.machine.Has (object n) ∧ value = Bytes.ofNat 4 n
  -- Who succeeds has given the number of a handle that is open on an object. The number of the object, which
  -- has 32 bits, is found through whichever map until the entry is set again or taken out.
  written {place : MapRef} {m : Map} {command : MapCommand} {datum value : Datum} {answer : Answer} :
    s.Opens place m id → command.write? = some (datum, value) →
    (s.run (.onMap place command)).1 = .done answer → ∃ key fd n,
      datum.encode map.info.keySize.toNat = .ok key ∧ value.handle? = some fd ∧
      (∀ v, value = .integer v → v = fd) ∧ s.host.machine.handles.get? fd = some (object n) ∧
      ∀ {s' : Session} {place' : MapRef} {m' : Map}, (s.run (.onMap place command)).2.Spares id key s' →
        s'.Opens place' m' id →
          (s'.run (.onMap place' (.lookupInteger datum))).1 = .done (.number (n % Bytes.limit 4))
  -- With anything else nothing happens.
  refused {place : MapRef} {m : Map} {command : MapCommand} {datum value : Datum} :
    s.Opens place m id → command.write? = some (datum, value) →
    (∀ fd n, value.handle? = some fd → s.host.machine.handles.get? fd ≠ some (object n)) →
    ∃ e, (s.run (.onMap place command)).1 = .failed e ∧
      (s.run (.onMap place command)).2.host.machine = s.host.machine
  array : map.kind.isArray → s.ReferenceArray id map object

section

variable {s : Session} {map : KernelMap} (r : s.Reached) (hm : s.host.machine.maps.get? id = some map)
  (hk : map.kind.object? = some object)

include r hm hk

theorem referenceArray (ha : map.kind.isArray) : s.ReferenceArray id map object := by
  have w : map.WellFormed := r.told.sane.maps _ _ hm
  have hp := MapKind.isPerCpu_of_object? hk
  have inside {datum : Datum} {key : Bytes} (he : datum.encode 4 = .ok key)
      (hi : Bytes.toNat key < map.info.maxEntries.toNat) : map.encodeKey datum = .ok key := by
    simp [KernelMap.encodeKey, w.keySize_of_isArray ha, he, not_le.mpr hi]
  have outside {datum : Datum} {key : Bytes} (he : datum.encode 4 = .ok key)
      (hi : map.info.maxEntries.toNat ≤ Bytes.toNat key) :
      map.encodeKey datum = .error (.outOfRange (Bytes.toNat key) map.info.maxEntries.toNat) := by
    simp [KernelMap.encodeKey, w.keySize_of_isArray ha, he, ha, hi]
  constructor
  case filled =>
    intro place m command datum value key fd n o hc he hi hv hn
    have hc : ∃ flags, flags ≠ UpdateFlags.mustNotExist ∧
        command.run = MapCommand.ask (fun _ => .nothing) fun m => m.write datum value flags := by
      obtain rfl | rfl := hc
      case inl => exact ⟨UpdateFlags.mustExist, by decide, rfl⟩
      case inr => exact ⟨UpdateFlags.any, by decide, rfl⟩
    obtain ⟨flags, hf, hc⟩ := hc
    obtain ⟨h, _⟩ | ⟨_, _, h⟩ := o.run_of_ends hc ((o.sees r.told hm).write_array hk ha hf (inside he hi) hv hn)
    case inl => exact h
    case inr => exact h.elim
  case present =>
    intro place m datum value key bytes o he hi hv
    have hc : (MapCommand.insert datum value).run = MapCommand.ask (fun _ => .nothing) (·.insert datum value) := rfl
    obtain ⟨_, h⟩ | ⟨e, h, rfl⟩ := o.run_of_ends hc ((o.sees r.told hm).insert_array hk ha (inside he hi) hv)
    case inl => exact h.elim
    case inr => exact h
  case undeletable =>
    intro place m datum o
    have hc : (MapCommand.delete datum).run = MapCommand.ask (fun _ => .nothing) (·.delete datum) := rfl
    obtain ⟨_, h⟩ | ⟨e, h, rfl⟩ := o.run_of_ends hc ((o.sees r.told hm).delete_array ha)
    case inl => exact h.elim
    case inr => exact h
  case empty =>
    intro s₀ place m command datum key r₀ hn u o hc he hi
    have f := u.finds r₀ ⟨fun _ => rfl, fun h => by simp [hn] at h⟩
    have hg : map.lookup datum = .error .notFound := by
      simp [KernelMap.lookup, inside he hi, f.entry hm (KernelMap.not_slotted_of_object? hk)]
    rw [o.run_find r.told hm (MapCommand.find?_of_look? hc hp hg)]
    rfl
  case outside =>
    intro place m command datum value key o hc he hi
    obtain hc | hc := hc
    case inl =>
      have hg : map.lookup datum =
          .error (Refusal.outOfRange (Bytes.toNat key) map.info.maxEntries.toNat).error := by
        rw [KernelMap.lookup, outside he hi]
      rw [o.run_find r.told hm (MapCommand.find?_of_look? hc hp hg)]
      rfl
    case inr =>
      obtain ⟨flags, hc⟩ := MapCommand.run_of_write? hc
      obtain ⟨_, h⟩ | ⟨e, h, rfl⟩ := o.run_of_ends hc
        ((o.sees r.told hm).write_of_encodeKey_error (outside he hi))
      case inl => exact h.elim
      case inr => exact h

-- What is written to a map of handles has to be the number of a handle that is open on an object of the right sort
-- at that moment. What is found is the number of the object, through whichever map, for as long as nobody writes to
-- the entry again. If the map is an array, its slots are empty at first, each can be filled and filled again, and
-- none can be emptied.
theorem references : s.References id map object where
  there hg := r.mapsRefer id map hm object hk _ _ hg
  written {place m command datum value answer} o hw ha := by
    obtain ⟨_, key, fd, n, hkey, hv, hn, he⟩ | ⟨e, he, _⟩ := o.run_write r hm hk hw
    case inr => cases he.symm.trans ha
    case inl =>
      have hp : 0 ≤ fd := le_trans (by decide) (r.le_of_handle hn)
      refine ⟨key, fd, n, KernelMap.encode_of_encodeKey hkey, hv, ?_, hn, fun u o' => ?_⟩
      case refine_1 =>
        rintro v rfl
        exact Datum.eq_of_handle? hv hp
      case refine_2 =>
        have r' : (s.run (.onMap place command)).2.Reached := .run _ ⟨trivial, nofun⟩ r
        have hm' : (s.run (.onMap place command)).2.host.machine.maps.get? id =
            some { map with entries := map.entries.insert key (Bytes.ofNat 4 n) } := by
          rw [he, Machine.setMap, Table.get?_insert, if_pos rfl]
        exact found_of_spares r' hm' hk (by rw [Table.get?_insert, if_pos rfl]) hkey u o'
  refused o hw hn := by
    obtain ⟨_, _, fd, n, _, hv, hf, _⟩ | he := o.run_write r hm hk hw
    case inl => exact absurd hf (hn fd n hv)
    case inr => exact he
  array := referenceArray r hm hk

end

-- An array for two programs, of which the first one is there.
def tails : Map :=
  ⟨"tails", .programArray, 4, 4, 2, 0, none, none, 1, .unset⟩

def withTails : Session :=
  let pass : Program :=
    { name := "pass", kind := .xdp, license := "GPL", code := [0x95, 0, 0, 0, 0, 0, 0, 0], kernelVersion := 0 }
  [.newProgram "pass" pass, .onProgram (.own "pass") .load, .newMap "tails" tails, .onMap (.own "tails") .create,
    .onMap (.own "tails") (.update (.integer 0) (.integer 3))].foldl (fun s c => (s.run c).2) {}

theorem withTails_reached : withTails.Reached :=
  .run _ ⟨trivial, nofun⟩ <| .run _ ⟨trivial, nofun⟩ <| .run _ ⟨rfl, nofun⟩ <|
    .run _ ⟨trivial, nofun⟩ <|
    .run _ ⟨⟨rfl, rfl⟩, nofun⟩ <| .fresh .empty

theorem references_of_tails : ∃ map, withTails.host.machine.maps.get? 2 = some map ∧
    map.entries.entries = [([0, 0, 0, 0], [1, 0, 0, 0])] ∧ withTails.References 2 map .program := by
  have he : (withTails.host.machine.maps.get? 2).map (fun map => (map.kind, map.entries.entries)) =
      some (.programArray, [([0, 0, 0, 0], [1, 0, 0, 0])]) := by decide +kernel
  obtain ⟨map, hm, he⟩ := Option.map_eq_some_iff.mp he
  obtain ⟨hk, he⟩ := Prod.mk.inj he
  exact ⟨map, hm, he, references withTails_reached hm (by rw [hk]; rfl)⟩

end Session

end EbpfManager
