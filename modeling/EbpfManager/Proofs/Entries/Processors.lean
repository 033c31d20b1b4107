import EbpfManager.Proofs.Elf.Tables
import EbpfManager.Proofs.Entries.Widths

namespace EbpfManager

namespace Bytes

variable {size count : Nat} {bs : Bytes}

theorem pieces_eq_map (size count : Nat) (bs : Bytes) :
    pieces size count bs = (List.range count).map fun i => (bs.drop (i * size)).take size := by
  induction count generalizing bs
  case zero => rfl
  case succ count ih =>
    rw [pieces, ih, List.range_succ_eq_map, List.map_cons, List.map_map]
    congr 1
    case e_head => simp
    case e_tail =>
      refine List.map_congr_left fun i _ => ?_
      rw [Function.comp_apply, List.drop_drop, Nat.succ_mul, Nat.add_comm]

theorem chunks_eq_map (h0 : 0 < size) (h : bs.length = size * count) :
    chunks size bs = (List.range count).map fun i => (bs.drop (i * size)).take size := by
  rw [chunks, h, Nat.mul_div_cancel_left _ h0, pieces_eq_map]

end Bytes

namespace Map

variable {m : Map} {count : Nat} {value : Datum}

-- The form of the values of a map for so many processors.
def form (m : Map) (count : Nat) : ValueForm where
  width      := m.valueSize
  processors := some count

theorem form_encode (m : Map) (count : Nat) (value : Datum) :
    (m.form count).encode value =
      if value.octetLength? = some (m.slotSize * count) then value.encode (m.slotSize * count)
      else do
        let one ← value.encode m.valueSize
        return (List.replicate count (one ++ List.replicate (m.slotSize - one.length) 0)).flatten :=
  rfl

theorem form_encode_octets {octets : Bytes} (hl : octets.length = m.slotSize * count) :
    (m.form count).encode (.octets octets) = .ok octets := by
  have hs : Datum.octetLength? (.octets octets) = some (m.slotSize * count) := congrArg some hl
  rw [form_encode, if_pos hs, ← hl]
  simp [Datum.encode, Datum.encodeOctets, Bytes.padTo?]

-- One value for each processor.
def copies (m : Map) (count : Nat) (bytes : Bytes) : Bytes :=
  (List.replicate count (bytes ++ List.replicate (m.slotSize - m.valueSize) 0)).flatten

theorem form_encode_copies (hn : value.octetLength? ≠ some (m.slotSize * count)) :
    (m.form count).encode value = (value.encode m.valueSize).map (m.copies count) := by
  rw [form_encode, if_neg hn]
  cases he : value.encode m.valueSize
  case error => rfl
  case ok bytes =>
    have hl : bytes.length = m.valueSize := Datum.length_of_encode he
    simp [bind, Except.bind, Except.map, pure, Except.pure, copies, hl]

theorem valueSize_le_slotSize (m : Map) : m.valueSize ≤ m.slotSize := by
  unfold slotSize
  omega

section Copies

variable {bytes : Bytes} (hl : bytes.length = m.valueSize)

include hl

theorem length_of_mem_slots {slot : Bytes}
    (hs : slot ∈ List.replicate count (bytes ++ List.replicate (m.slotSize - m.valueSize) 0)) :
    slot.length = m.slotSize := by
  rw [List.eq_of_mem_replicate hs, List.length_append, hl, List.length_replicate,
    Nat.add_sub_cancel' m.valueSize_le_slotSize]

theorem length_copies : (m.copies count bytes).length = m.slotSize * count := by
  rw [copies, Bytes.length_flatten fun _ => length_of_mem_slots hl, List.length_replicate, Nat.mul_comm]

-- Each slot is a piece of its own.
theorem chunks_copies (h0 : 0 < m.slotSize) : (m.copies count bytes).chunks m.slotSize =
    List.replicate count (bytes ++ List.replicate (m.slotSize - m.valueSize) 0) :=
  Bytes.chunks_flatten h0.ne' fun _ => length_of_mem_slots hl

end Copies

end Map

namespace Machine

variable {m m' : Machine} {fd : Fd} {key value : Bytes} {size : Nat}

-- That every value is as long as the values of its map are.
def Fitted (m : Machine) : Prop :=
  ∀ id map, m.maps.get? id = some map → ∀ key value, map.entries.get? key = some value →
    value.length = map.valueLength

theorem MapsWellFormed.fitted (w : m.MapsWellFormed) : m.Fitted :=
  fun id map hm _ _ hg => (w id map hm).value hg

theorem mapLookup_eq_ok_iff : m.mapLookup fd key size = .ok value ↔ ∃ id map, m.mapAt fd = .ok (id, map) ∧
    key.length = map.info.keySize.toNat ∧ size = map.valueLength ∧ map.entries.get? key = some value := by
  unfold mapLookup
  cases hm : m.mapAt fd
  case error => simp [bind, Except.bind]
  case ok p =>
    simp only [bind, Except.bind, fails, Except.ok.injEq]
    constructor
    case mp =>
      intro h
      split at h
      case isTrue => cases h
      case isFalse hl =>
        obtain ⟨hk, hs⟩ := not_or.mp hl
        split at h <;> cases h
        exact ⟨p.1, p.2, rfl, not_not.mp hk, not_not.mp hs, by assumption⟩
    case mpr =>
      rintro ⟨id, map, rfl, hk, hs, hg⟩
      simp [hk, hs, hg, pure, Except.pure]

theorem Fitted.length_of_mapLookup (f : m.Fitted) (h : m.mapLookup fd key size = .ok value) : value.length = size := by
  obtain ⟨id, map, hm, _, rfl, hg⟩ := mapLookup_eq_ok_iff.mp h
  exact f id map (mapAt_eq_ok hm).right key value hg

-- What has been set is found, if it is kept as it is.
theorem mapLookup_of_mapUpdate {flags : UpdateFlags} (h : m.mapUpdate fd key value flags = .ok ((), m'))
    (hs : ∀ id map, m.mapAt fd = .ok (id, map) → m.storedValue map.kind value = .ok value) :
    m'.mapLookup fd key value.length = .ok value := by
  obtain ⟨id, map, stored, hm, hstored, hk, hv, _, rfl⟩ := mapUpdate_eq_ok h
  cases (hs id map hm).symm.trans hstored
  have ho := (mapAt_eq_ok hm).left
  have hm' : (m.setMap id { map with entries := map.entries.insert key value }).maps.get? id =
      some { map with entries := map.entries.insert key value } := by
    rw [setMap, Table.get?_insert, if_pos rfl]
  refine mapLookup_eq_ok_iff.mpr ⟨id, _, mapAt_eq ho hm', hk, hv, ?_⟩
  rw [Table.get?_insert, if_pos rfl]

end Machine

namespace Map

variable {m : Map} {h h' : Host} {key value : Datum} {flags : UpdateFlags} {count : Nat}

-- The ways to write an entry.
def writes (m : Map) (key value : Datum) : List (Attempt Unit) :=
  [m.insert key value, m.update key value, m.upsert key value]

theorem insert_mem_writes (m : Map) (key value : Datum) : m.insert key value ∈ m.writes key value :=
  List.mem_cons_self

theorem update_mem_writes (m : Map) (key value : Datum) : m.update key value ∈ m.writes key value :=
  List.mem_cons_of_mem _ List.mem_cons_self

theorem upsert_mem_writes (m : Map) (key value : Datum) : m.upsert key value ∈ m.writes key value :=
  List.mem_cons_of_mem _ (List.mem_cons_of_mem _ List.mem_cons_self)

theorem exists_of_mem_writes {work : Attempt Unit} (hw : work ∈ m.writes key value) :
    ∃ flags, work = m.write key value flags := by
  simp only [writes, List.mem_cons, List.not_mem_nil, or_false] at hw
  obtain rfl | rfl | rfl := hw
  all_goals exact ⟨_, rfl⟩

-- What is read at a key: all octets, and the value of each processor.
def Gives (m : Map) (h : Host) (key : Datum) (all : Bytes) (each : List Bytes) : Prop :=
  ((m.lookup key).outcome h).1 = .ok all ∧ ((m.lookupPerCpu key).outcome h).1 = .ok each

-- An open map with a value for each of so many processors, on a host on which nothing is out of order.
structure PerCpu (m : Map) (count : Nat) (h : Host) : Prop where
  isPerCpu  : m.kind.isPerCpu
  cpus      : m.cpus = count
  pos       : 0 < count
  width     : 0 < m.valueSize
  sized     : m.valueSize < UInt32.size
  live      : ∃ fd, m.handle = .live fd
  faultless : h.faults = []
  fitted    : h.machine.Fitted

structure KeepsSlots (m : Map) (count : Nat) (h : Host) : Prop where
  -- Octets for all processors are taken as they are.
  taken {key : Datum} {octets : Bytes} {work : Attempt Unit} {h' : Host} : octets.length = m.slotSize * count →
    work ∈ m.writes key (.octets octets) → work h = .ok () h' →
    m.Gives h' key octets ((List.range count).map fun i => (octets.drop (i * m.slotSize)).take m.valueSize)
  -- Any other value is one for each of them.
  copied {key value : Datum} {work : Attempt Unit} {h' : Host} : value.octetLength? ≠ some (m.slotSize * count) →
    work ∈ m.writes key value → work h = .ok () h' → ∃ bytes, value.encode m.valueSize = .ok bytes ∧
      m.Gives h' key (m.copies count bytes) (List.replicate count bytes)
  -- What is neither is refused, because of the value if the key can be the key of an entry and the size of all
  -- slots can be told.
  refused {key value : Datum} {work : Attempt Unit} {cause : EncodeError} :
    value.octetLength? ≠ some (m.slotSize * count) → value.encode m.valueSize = .error cause →
    work ∈ m.writes key value → ∃ e, work h = .error e h ∧
      (∀ bytes, m.encodeKey key = .ok bytes → m.slotSize * count < sizeLimit →
        e = .invalidValue m.name (.encoding cause))
  all {key : Datum} {value : Bytes} : ((m.lookup key).outcome h).1 = .ok value → value.length = m.slotSize * count
  each {key : Datum} {values : List Bytes} : ((m.lookupPerCpu key).outcome h).1 = .ok values →
    values.length = count ∧ ∀ value ∈ values, value.length = m.valueSize

-- What a write has come to that succeeded.
theorem ends_write {fd : Fd} (hf : h.faults = []) (hm : m.handle = .live fd) :
    Ends (m.write key value flags) h
      (fun _ h' => h'.faults = [] ∧ ∃ bytes octets flags', m.encodeKey key = .ok bytes ∧
        m.encodeValue value = .ok octets ∧ h.machine.mapUpdate fd bytes octets flags' = .ok ((), h'.machine))
      fun _ _ => True := by
  unfold write
  simp only [liveFd, hm, ends_bind, ends_except]
  cases hk : m.encodeKey key
  case error => trivial
  case ok bytes =>
    cases hv : m.encodeValue value
    case error => trivial
    case ok octets =>
      simp only [ends_ite, ends_bind, ends_throw, implies_true, true_and]
      intro _
      rw [ends_perform, ends_accept, Host.perform_of_faults_eq_nil _ hf]
      split
      case h_2 => trivial
      case h_1 hr => exact ⟨hf, bytes, octets, _, rfl, rfl, Machine.eq_ok_of_settle hr⟩

-- What a lookup has come to that succeeded, and when one does.
theorem lookup_eq_ok_iff {fd : Fd} {octets : Bytes} (hf : h.faults = []) (hm : m.handle = .live fd) :
    ((m.lookup key).outcome h).1 = .ok octets ↔ ∃ bytes size, m.encodeKey key = .ok bytes ∧
      m.bufferSize = .ok size ∧ h.machine.mapLookup fd bytes size = .ok octets := by
  have w : Ends (m.lookup key) h
      (fun octets _ => ∃ bytes size, m.encodeKey key = .ok bytes ∧ m.bufferSize = .ok size ∧
        h.machine.mapLookup fd bytes size = .ok octets)
      fun _ _ => ∀ bytes size octets, m.encodeKey key = .ok bytes → m.bufferSize = .ok size →
        h.machine.mapLookup fd bytes size ≠ .ok octets := by
    unfold lookup lookupOctets
    simp only [liveFd, hm, ends_bind, ends_except]
    cases hk : m.encodeKey key
    case error => rintro _ _ _ ⟨⟩
    case ok bytes =>
      cases hs : m.bufferSize
      case error => rintro _ _ _ _ ⟨⟩
      case ok size =>
        dsimp only
        rw [ends_perform, ends_accept, Host.perform_of_faults_eq_nil _ hf]
        cases hl : h.machine.mapLookup fd bytes size
        case ok octets => simpa only [Machine.answer, hl] using ⟨bytes, size, rfl, rfl, hl⟩
        case error =>
          simp only [Machine.answer, hl]
          rintro _ _ octets ⟨⟩ ⟨⟩
          simp [hl]
  constructor
  case mp => exact w.of_outcome_ok
  case mpr =>
    rintro ⟨bytes, size, hk, hs, hl⟩
    cases he : ((m.lookup key).outcome h).1
    case error => exact absurd hl (w.of_outcome_error he bytes size octets hk hs)
    case ok octets' =>
      obtain ⟨bytes', size', hk', hs', hl'⟩ := w.of_outcome_ok he
      cases hk.symm.trans hk'
      cases hs.symm.trans hs'
      cases hl'.symm.trans hl
      rfl

-- The form of a value: as many copies as there are processors, each in its slot, or the value alone.
theorem encodeValue_eq_ok {octets : Bytes} (hv : m.encodeValue value = .ok octets) :
    ∃ total, m.bufferSize = .ok total ∧
      ((¬m.kind.isPerCpu ∨ value.octetLength? = some total) ∧ value.encode total = .ok octets ∨
        m.kind.isPerCpu ∧ m.slotSize ≠ 0 ∧ ∃ bytes, value.encode m.valueSize = .ok bytes ∧
          octets = m.copies m.cpus bytes) := by
  rw [encodeValue] at hv
  obtain ⟨total, hs, hv⟩ := bind_eq_ok.mp hv
  refine ⟨total, hs, ?_⟩
  split at hv
  case isTrue hp =>
    obtain ⟨bytes, hb, hv⟩ := bind_eq_ok.mp hv
    have hb := mapError_eq_ok.mp hb
    split at hv
    case isTrue  => cases hv
    case isFalse h0 =>
      cases hv
      exact .inr ⟨hp.left, h0, bytes, hb, by rw [copies, Datum.length_of_encode hb]⟩
  case isFalse hn => exact .inl ⟨by tauto, mapError_eq_ok.mp hv⟩

-- A value fills the room for it.
theorem bufferSize_of_encodeValue {octets : Bytes} (hv : m.encodeValue value = .ok octets) :
    m.bufferSize = .ok octets.length := by
  obtain ⟨total, hs, ⟨_, he⟩ | ⟨hp, _, bytes, hb, rfl⟩⟩ := encodeValue_eq_ok hv
  case inl => rw [hs, Datum.length_of_encode he]
  case inr =>
    rw [length_copies (Datum.length_of_encode hb)]
    rw [Map.bufferSize, if_pos hp] at hs ⊢
    split at hs <;> cases hs
    case isTrue hlt => rw [if_pos hlt]

-- What has been written is found, if it is kept as it is.
theorem lookup_of_write {fd : Fd} (hf : h.faults = []) (hm : m.handle = .live fd)
    (hstored : ∀ id map octets, h.machine.mapAt fd = .ok (id, map) → m.encodeValue value = .ok octets →
      h.machine.storedValue map.kind octets = .ok octets)
    (he : m.write key value flags h = .ok () h') :
    ∃ octets, m.encodeValue value = .ok octets ∧ ((m.lookup key).outcome h').1 = .ok octets := by
  have w : Ends (m.write key value flags) h _ _ := ends_write hf hm
  simp only [Ends, he] at w
  obtain ⟨hf', bytes, octets, flags', hk, hv, hu⟩ := w
  have hl := Machine.mapLookup_of_mapUpdate hu fun id map hid => hstored id map octets hid hv
  exact ⟨octets, hv, (lookup_eq_ok_iff hf' hm).mpr ⟨bytes, _, hk, bufferSize_of_encodeValue hv, hl⟩⟩

namespace PerCpu

variable (o : m.PerCpu count h)

include o

theorem slotSize_pos : 0 < m.slotSize := by
  have := o.width
  unfold slotSize
  omega

theorem bufferSize_eq_ok {total : Nat} (hs : m.bufferSize = .ok total) : total = m.slotSize * count := by
  rw [bufferSize, if_pos o.isPerCpu, o.cpus] at hs
  split at hs <;> cases hs
  rfl

theorem bufferSize (hl : m.slotSize * count < sizeLimit) : m.bufferSize = .ok (m.slotSize * count) := by
  have hs : m.valueSize < 2 ^ 32 := o.sized
  have hlim : sizeLimit = 2 ^ 64 := rfl
  rw [Map.bufferSize, if_pos o.isPerCpu, o.cpus, if_pos ⟨by omega, hl⟩]

theorem encodeValue (hs : m.bufferSize = .ok (m.slotSize * count)) (value : Datum) :
    m.encodeValue value =
      ((m.form count).encode value).mapError (.invalidValue m.name <| .encoding ·) := by
  have h0 : m.slotSize ≠ 0 := o.slotSize_pos.ne'
  unfold Map.encodeValue
  rw [form_encode]
  simp only [hs, bind, Except.bind, o.isPerCpu, o.cpus, true_and, ne_eq, ite_not, h0, if_false]
  split
  case isTrue  => rfl
  case isFalse => cases value.encode m.valueSize <;> rfl

omit o in
theorem lookupPerCpu_eq (hp : m.kind.isPerCpu) (h0 : 0 < m.slotSize) :
    ((m.lookupPerCpu key).outcome h).1 =
      (fun octets => (octets.chunks m.slotSize).map (·.take m.valueSize)) <$> ((m.lookup key).outcome h).1 := by
  unfold lookupPerCpu
  simp only [hp, Bool.not_true, Bool.false_eq_true, if_false, if_neg h0.ne']
  exact Attempt.outcome_bind h fun _ _ => rfl

-- The value of a processor begins where its slot begins.
theorem take_chunks {octets : Bytes} (hl : octets.length = m.slotSize * count) :
    (octets.chunks m.slotSize).map (·.take m.valueSize) =
      (List.range count).map fun i => (octets.drop (i * m.slotSize)).take m.valueSize := by
  rw [Bytes.chunks_eq_map o.slotSize_pos hl, List.map_map]
  refine List.map_congr_left fun i _ => ?_
  rw [Function.comp_apply, List.take_take, Nat.min_eq_left m.valueSize_le_slotSize]

-- What is written is found.
theorem gives {work : Attempt Unit} (hw : work ∈ m.writes key value) (he : work h = .ok () h') :
    ∃ octets, (m.form count).encode value = .ok octets ∧
      m.Gives h' key octets ((octets.chunks m.slotSize).map (·.take m.valueSize)) := by
  obtain ⟨flags, rfl⟩ := exists_of_mem_writes hw
  obtain ⟨fd, hm⟩ := o.live
  -- All slots together are not as long as the number of a handle.
  have h4 {octets : Bytes} (hv : m.encodeValue value = .ok octets) : octets.length ≠ 4 := by
    rw [o.bufferSize_eq_ok (bufferSize_of_encodeValue hv), slotSize, Nat.mul_right_comm]
    omega
  have hstored : ∀ id map octets, h.machine.mapAt fd = .ok (id, map) → m.encodeValue value = .ok octets →
      h.machine.storedValue map.kind octets = .ok octets := fun _ _ _ _ hv => if_pos (h4 hv)
  obtain ⟨octets, hv, hl⟩ := lookup_of_write o.faultless hm hstored he
  have hs := bufferSize_of_encodeValue hv
  rw [o.bufferSize_eq_ok hs] at hs
  rw [o.encodeValue hs, mapError_eq_ok] at hv
  refine ⟨octets, hv, hl, ?_⟩
  rw [lookupPerCpu_eq o.isPerCpu o.slotSize_pos, hl]
  rfl

theorem length_of_lookup {octets : Bytes} (hl : ((m.lookup key).outcome h).1 = .ok octets) :
    octets.length = m.slotSize * count := by
  obtain ⟨fd, hm⟩ := o.live
  obtain ⟨bytes, size, _, hs, hl⟩ := (lookup_eq_ok_iff o.faultless hm).mp hl
  cases o.bufferSize_eq_ok hs
  exact o.fitted.length_of_mapLookup hl

-- What is neither octets for all processors nor a value for each is not written.
theorem refused {work : Attempt Unit} {cause : EncodeError} (hn : value.octetLength? ≠ some (m.slotSize * count))
    (he : value.encode m.valueSize = .error cause) (hw : work ∈ m.writes key value) :
    ∃ e, work h = .error e h ∧ (∀ bytes, m.encodeKey key = .ok bytes → m.slotSize * count < sizeLimit →
      e = .invalidValue m.name (.encoding cause)) := by
  obtain ⟨flags, rfl⟩ := exists_of_mem_writes hw
  obtain ⟨fd, hm⟩ := o.live
  -- Whether there is room for all slots is looked at before the value is.
  have hv : ∃ e, m.encodeValue value = .error e ∧ (m.slotSize * count < sizeLimit →
      e = .invalidValue m.name (.encoding cause)) := by
    cases hs : m.bufferSize
    case error e =>
      refine ⟨e, by rw [Map.encodeValue, hs]; rfl, fun hl => ?_⟩
      cases hs.symm.trans (o.bufferSize hl)
    case ok total =>
      cases o.bufferSize_eq_ok hs
      refine ⟨_, ?_, fun _ => rfl⟩
      rw [o.encodeValue hs, form_encode_copies hn, he]
      rfl
  obtain ⟨e, hv, hc⟩ := hv
  have w : Ends (m.write key value flags) h (fun _ _ => False) fun e h' => h' = h ∧
      ∀ bytes, m.encodeKey key = .ok bytes → m.slotSize * count < sizeLimit →
        e = .invalidValue m.name (.encoding cause) := by
    unfold write
    simp only [liveFd, hm, ends_bind, ends_except]
    cases hk : m.encodeKey key
    case error =>
      refine ⟨trivial, ?_⟩
      rintro _ ⟨⟩
    case ok =>
      simp only [hv]
      exact ⟨trivial, fun _ _ => hc⟩
  cases hw : m.write key value flags h
  case ok => simp [Ends, hw] at w
  case error e h' =>
    simp only [Ends, hw] at w
    obtain ⟨rfl, hc⟩ := w
    exact ⟨e, rfl, hc⟩

theorem keepsSlots : m.KeepsSlots count h where
  taken {key octets work h'} hl hw he := by
    obtain ⟨octets', hv, hg⟩ := o.gives hw he
    cases hv.symm.trans (form_encode_octets hl)
    rwa [o.take_chunks hl] at hg
  copied {key value work h'} hn hw he := by
    obtain ⟨octets, hv, hg⟩ := o.gives hw he
    rw [form_encode_copies hn] at hv
    obtain ⟨bytes, hb, rfl⟩ := map_eq_ok.mp hv
    have hl : bytes.length = m.valueSize := Datum.length_of_encode hb
    rw [chunks_copies hl o.slotSize_pos, List.map_replicate, List.take_left' hl] at hg
    exact ⟨bytes, hb, hg⟩
  refused := o.refused
  all := o.length_of_lookup
  each {key values} hv := by
    rw [lookupPerCpu_eq o.isPerCpu o.slotSize_pos] at hv
    obtain ⟨octets, hl, rfl⟩ := map_eq_ok.mp hv
    have hl := o.length_of_lookup hl
    rw [o.take_chunks hl]
    refine ⟨by simp, fun value hm => ?_⟩
    obtain ⟨i, hi, rfl⟩ := List.mem_map.mp hm
    have hi : i + 1 ≤ count := List.mem_range.mp hi
    have hr : i * m.slotSize + m.slotSize ≤ m.slotSize * count := by
      rw [← Nat.succ_mul, Nat.mul_comm m.slotSize]
      exact Nat.mul_le_mul_right _ hi
    have := m.valueSize_le_slotSize
    rw [List.length_take, List.length_drop, hl]
    omega

end PerCpu

end Map

namespace Session

variable {s : Session} {place : MapRef} {m : Map} {fd : Fd}

theorem Reached.perCpu (r : s.Reached) (h : s.map? place = some m) (hm : m.handle = .live fd) (hp : m.kind.isPerCpu)
    (hw : 0 < m.valueSize) (hs : m.valueSize < UInt32.size) : m.PerCpu Machine.cpus s.host where
  isPerCpu  := hp
  cpus      := by
    obtain ⟨_, _, _, _, d⟩ := r.open h hm
    exact d.cpus hp
  pos       := by decide
  width     := hw
  sized     := hs
  live      := ⟨fd, hm⟩
  faultless := r.told.sane.faultless
  fitted    := r.told.sane.maps.fitted

end Session

namespace Map

-- Whatever is written to a map with a value for each processor, on a machine with any number of them. The maps
-- that are open in a session are such maps, and the size of all their slots can be told.
theorem keeps_slots :
    (∀ {m : Map} {count : Nat} {h : Host}, m.PerCpu count h → m.KeepsSlots count h) ∧
      ∀ {s : Session} {place : MapRef} {m : Map} {fd : Fd}, s.Reached → s.map? place = some m →
        m.handle = .live fd →
        m.kind.isPerCpu → 0 < m.valueSize → m.valueSize < UInt32.size →
        m.PerCpu Machine.cpus s.host ∧ m.slotSize * Machine.cpus < sizeLimit := by
  refine ⟨PerCpu.keepsSlots, fun {s place m fd} r h hm hp hw hs => ⟨r.perCpu h hm hp hw hs, ?_⟩⟩
  have hs : m.valueSize < 2 ^ 32 := hs
  have hlim : sizeLimit = 2 ^ 64 := rfl
  unfold slotSize Machine.cpus
  omega

-- Values of five octets for two processors: all at once, one for both, and a number, which does not have
-- this width.
theorem keeps_slots_of_hits :
    let m : Map := { Session.hits with cpus := 2, handle := .live 3 }
    let octets : Bytes := [1, 2, 3, 4, 5, 0, 0, 0, 6, 7, 8, 9, 10, 0, 0, 0]
    let h := Session.withHits.host
    m.PerCpu 2 h ∧
    (∃ h', m.upsert (.integer 1) (.octets octets) h = .ok () h' ∧
      m.Gives h' (.integer 1) octets [[1, 2, 3, 4, 5], [6, 7, 8, 9, 10]]) ∧
    (∃ h', m.insert (.integer 2) (.text "two") h = .ok () h' ∧
      m.Gives h' (.integer 2) [116, 119, 111, 0, 0, 0, 0, 0, 116, 119, 111, 0, 0, 0, 0, 0]
        [[116, 119, 111, 0, 0], [116, 119, 111, 0, 0]]) ∧
    m.update (.integer 1) (.integer 7) h = .error (.invalidValue "hits" (.encoding (.unsupportedWidth 5))) h := by
  intro m octets h
  have hm : Session.withHits.map? (.own "hits") = some m := by decide +kernel
  obtain ⟨o, hl⟩ := keeps_slots.right Session.withHits_reached hm rfl rfl (by decide) (by decide)
  have k := keeps_slots.left o
  refine ⟨o, ?_, ?_, ?_⟩
  case refine_1 =>
    have hw := m.upsert_mem_writes (.integer 1) (.octets octets)
    obtain ⟨h', he⟩ : ∃ h', m.upsert (.integer 1) (.octets octets) h = .ok () h' :=
      Attempt.exists_eq_ok (by decide +kernel)
    have hs : (List.range 2).map (fun i => (octets.drop (i * m.slotSize)).take m.valueSize) =
        [[1, 2, 3, 4, 5], [6, 7, 8, 9, 10]] := by decide +kernel
    exact ⟨h', he, hs ▸ k.taken (by decide) hw he⟩
  case refine_2 =>
    have hw := m.insert_mem_writes (.integer 2) (.text "two")
    obtain ⟨h', he⟩ : ∃ h', m.insert (.integer 2) (.text "two") h = .ok () h' :=
      Attempt.exists_eq_ok (by decide +kernel)
    obtain ⟨bytes, hb, hg⟩ := k.copied (by decide) hw he
    have hb' : Datum.encode (.text "two") m.valueSize = .ok [116, 119, 111, 0, 0] := by decide +kernel
    cases hb.symm.trans hb'
    have hs : m.copies 2 [116, 119, 111, 0, 0] = [116, 119, 111, 0, 0, 0, 0, 0, 116, 119, 111, 0, 0, 0, 0, 0] := by
      decide +kernel
    exact ⟨h', he, hs ▸ hg⟩
  case refine_3 =>
    have hw := m.update_mem_writes (.integer 1) (.integer 7)
    obtain ⟨e, he, hc⟩ := k.refused (by decide) rfl hw
    exact hc [1, 0, 0, 0] (by decide +kernel) hl ▸ he

end Map

end EbpfManager
