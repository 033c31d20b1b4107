import EbpfManager.Proofs.Entries.Mirrors

namespace EbpfManager

open Attempt (Asks)

inductive EntryCall
  | insert (key value : Datum)
  | update (key value : Datum)
  | upsert (key value : Datum)
  | delete (key : Datum)
  | lookup (key : Datum)
  deriving DecidableEq, Repr

inductive Refusal
  | badKey (cause : EncodeError)
  | outOfRange (index count : Nat)
  | badValue (cause : EncodeError)
  | present
  | absent
  | full
  | undeletable (kind : MapKind)
  deriving DecidableEq, Repr

-- What a refusal is for the kernel, where the kernel can refuse, and for somebody who knows the map by
-- a name.
def Refusal.errno : Refusal → Errno
  | present => Errno.entryExists
  | absent  => Errno.noEntry
  | full    => Errno.tooBig
  | _       => Errno.invalid

def Refusal.error (name : String) : Refusal → Error
  | badKey cause           => .invalidKey name (.encoding cause)
  | outOfRange index count => .keyOutOfRange name index count
  | badValue cause         => .invalidValue name (.encoding cause)
  | present                => .keyExists name
  | absent                 => .notFound name
  | full                   => .syscall .mapUpdate (.errno Errno.tooBig)
  | undeletable kind       => .unsupported .delete name kind

-- The form of the values of a map: how wide a value is, and for how many processors there is one.
structure ValueForm where
  width      : Nat
  processors : Option Nat
  deriving DecidableEq, Repr

namespace ValueForm

-- The room for the value of one processor.
def slot (f : ValueForm) : Nat :=
  (f.width + 7) / 8 * 8

def size (f : ValueForm) : Nat :=
  match f.processors with
  | none       => f.width
  | some count => f.slot * count

-- Octets for all processors are taken as they are. Any other value is one for each of them.
def encode (f : ValueForm) (value : Datum) : Except EncodeError Bytes :=
  match f.processors with
  | none       => value.encode f.width
  | some count =>
    if value.octetLength? = some f.size then value.encode f.size
    else do
      let one ← value.encode f.width
      return (List.replicate count (one ++ List.replicate (f.slot - one.length) 0)).flatten

theorem length_of_encode {f : ValueForm} {value : Datum} {bytes : Bytes} (h : f.encode value = .ok bytes) :
    bytes.length = f.size := by
  unfold encode at h
  split at h
  case h_1 hp => simpa [size, hp] using Datum.length_of_encode h
  case h_2 count hp =>
    split at h
    case isTrue => exact Datum.length_of_encode h
    case isFalse =>
      obtain ⟨one, ho, he⟩ := bind_eq_ok.mp h
      cases he
      have hl := Datum.length_of_encode ho
      have hs : f.width ≤ f.slot := by unfold slot; omega
      simp [size, hp, hl, Nat.add_sub_cancel' hs, Nat.mul_comm]

end ValueForm

namespace KernelMap

def form (map : KernelMap) : ValueForm where
  width      := map.info.valueSize.toNat
  processors := if map.kind.isPerCpu then some Machine.cpus else none

def encodeKey (map : KernelMap) (key : Datum) : Except Refusal Bytes :=
  match key.encode map.info.keySize.toNat with
  | .error e   => .error (.badKey e)
  | .ok bytes =>
    if map.kind.isArray ∧ map.info.maxEntries.toNat ≤ Bytes.toNat bytes then
      .error (.outOfRange (Bytes.toNat bytes) map.info.maxEntries.toNat)
    else .ok bytes

def encodeValue (map : KernelMap) (value : Datum) : Except Refusal Bytes :=
  (map.form.encode value).mapError .badValue

-- An entry is set, unless it has to be new or old and is not, or there is no room for it.
def store (map : KernelMap) (key value : Bytes) (flags : UpdateFlags) : Except Refusal KernelMap :=
  if flags = UpdateFlags.mustExist ∧ ¬map.entries.contains key then .error .absent
  else if flags = UpdateFlags.mustNotExist ∧ map.entries.contains key then .error .present
  else if ¬map.entries.contains key ∧ map.info.maxEntries.toNat ≤ map.entries.size then .error .full
  else .ok { map with entries := map.entries.insert key value }

def write (map : KernelMap) (key value : Datum) (flags : UpdateFlags) :
    Except Refusal (Option Bytes × KernelMap) := do
  let key ← map.encodeKey key
  let value ← map.encodeValue value
  return (none, ← map.store key value flags)

-- What a call comes to for the map of the kernel that it is about, whichever handle it is made through.
def call (map : KernelMap) : EntryCall → Except Refusal (Option Bytes × KernelMap)
  | .insert key value => map.write key value UpdateFlags.mustNotExist
  | .update key value => map.write key value UpdateFlags.mustExist
  | .upsert key value => map.write key value UpdateFlags.any
  | .delete key => do
    if map.kind.isArray then throw (.undeletable map.kind)
    let key ← map.encodeKey key
    if map.entries.contains key then return (none, { map with entries := map.entries.erase key })
    else throw .absent
  | .lookup key => do
    let key ← map.encodeKey key
    match map.entries.get? key with
    | some value => return (some value, map)
    | none       => throw .absent

-- Maps that keep what is written to them. Others take handles and keep numbers of objects.
structure Verbatim (map : KernelMap) : Prop where
  notHandleArray : ¬map.kind.isHandleArray
  notHashOfMaps  : map.kind ≠ .hashOfMaps

end KernelMap

theorem KernelMap.WellFormed.valueSize_pos {map : KernelMap} (w : map.WellFormed) :
    0 < map.info.valueSize.toNat := by
  have h := w.allowed
  simp only [Machine.shapeAllowed, shape, Bool.and_eq_true] at h
  have hv : map.info.valueSize ≠ 0 := of_decide_eq_true h.left.left.left.right
  exact Nat.pos_of_ne_zero fun he => hv (UInt32.toNat_inj.mp he)

namespace Map

variable {m : Map} {map : KernelMap}

section Encoding

variable (r : m.Mirrors map)

include r

theorem encodeKey_eq (w : map.WellFormed) (key : Datum) :
    m.encodeKey key = (map.encodeKey key).mapError (·.error m.name) := by
  have hmax : map.info.maxEntries.toNat < Bytes.limit 4 := map.info.maxEntries.toNat_lt
  unfold encodeKey KernelMap.encodeKey
  rw [r.keySize, r.kind, r.maxEntries, Nat.mod_eq_of_lt hmax]
  cases he : key.encode map.info.keySize.toNat
  case error e => rfl
  case ok bytes =>
    by_cases ha : map.kind.isArray
    case neg => simp [ha, Except.mapError]
    case pos =>
      have hl : bytes.length = 4 := (Datum.length_of_encode he).trans (w.keySize_of_isArray ha)
      have hlt : Bytes.toNat bytes < Bytes.limit 4 := hl ▸ Bytes.toNat_lt bytes
      have hi : bytes.decodeIndex? = some (Bytes.toNat bytes) := by
        simp [Bytes.decodeIndex?, Bytes.decodeUnsigned, Datum.IsIntegerWidth, hl, hlt]
      simp only [ha, hi, if_true, true_and]
      split <;> rfl

theorem slotSize_eq : m.slotSize = map.form.slot := by
  simp [slotSize, ValueForm.slot, KernelMap.form, r.valueSize]

-- Sizes of 32 bits do not go over 64 bits.
theorem bufferSize_eq : m.bufferSize = .ok map.form.size := by
  have hlt : map.info.valueSize.toNat < 2 ^ 32 := map.info.valueSize.toNat_lt
  have hlim : sizeLimit = 2 ^ 64 := rfl
  unfold bufferSize
  rw [slotSize_eq r, r.valueSize]
  by_cases hp : m.kind.isPerCpu
  case neg => simp [hp, KernelMap.form, ValueForm.size, ← r.kind]
  case pos =>
    have hs : map.form.slot * Machine.cpus < sizeLimit := by
      simp only [KernelMap.form, ValueForm.slot, Machine.cpus]
      omega
    rw [if_pos hp, r.cpus hp, if_pos ⟨by omega, hs⟩]
    simp [KernelMap.form, ValueForm.size, ← r.kind, hp]

theorem encodeValue_eq (w : map.WellFormed) (value : Datum) :
    m.encodeValue value = (map.encodeValue value).mapError (·.error m.name) := by
  have hpos : map.form.slot ≠ 0 := by
    have := w.valueSize_pos
    simp only [KernelMap.form, ValueForm.slot]
    omega
  unfold encodeValue KernelMap.encodeValue
  rw [bufferSize_eq r, slotSize_eq r, r.valueSize]
  by_cases hp : m.kind.isPerCpu
  case neg =>
    have hf : map.form = ⟨map.info.valueSize.toNat, none⟩ := by simp [KernelMap.form, ← r.kind, hp]
    rw [hf]
    cases he : value.encode map.info.valueSize.toNat <;>
      simp [bind, Except.bind, hp, ValueForm.encode, ValueForm.size, he, Except.mapError, Refusal.error]
  case pos =>
    have hf : map.form = ⟨map.info.valueSize.toNat, some Machine.cpus⟩ := by
      simp [KernelMap.form, ← r.kind, hp]
    rw [hf] at hpos ⊢
    simp only [bind, Except.bind, hp, true_and, r.cpus hp, ValueForm.encode, ne_eq, ite_not]
    split
    case isTrue hl =>
      cases value.encode _ <;> rfl
    case isFalse hl =>
      cases he : value.encode map.info.valueSize.toNat <;>
        simp [Except.mapError, Refusal.error, pure, Except.pure]

end Encoding

end Map

namespace KernelMap

variable {map map' : KernelMap} {key value : Bytes} {flags : UpdateFlags}

theorem store_eq_ok (h : map.store key value flags = .ok map') :
    map' = { map with entries := map.entries.insert key value } := by
  unfold store at h
  split at h
  case isTrue => cases h
  case isFalse =>
    split at h
    case isTrue => cases h
    case isFalse =>
      split at h
      case isTrue => cases h
      case isFalse => cases h; rfl

-- The reasons not to set an entry.
theorem store_eq_error {r : Refusal} (h : map.store key value flags = .error r) :
    r = .absent ∨ r = .present ∨ r = .full ∧ ¬map.entries.contains key := by
  unfold store at h
  split at h
  case isTrue => cases h; exact .inl rfl
  case isFalse =>
    split at h
    case isTrue => cases h; exact .inr (.inl rfl)
    case isFalse =>
      split at h
      case isTrue hc => cases h; exact .inr (.inr ⟨rfl, hc.left⟩)
      case isFalse => cases h

end KernelMap

namespace Machine

variable {machine : Machine} {map : KernelMap} {fd : Fd} {id : Nat} {key value : Bytes}

theorem storedValue_eq (v : map.Verbatim) : machine.storedValue map.kind value = .ok value := by
  have hk : map.kind ≠ .programArray ∧ ¬map.kind.isMapOfMaps := by
    obtain ⟨ha, hh⟩ := v
    cases hk : map.kind <;> simp_all [MapKind.isHandleArray, MapKind.isMapOfMaps]
  simp [storedValue, hk.left, hk.right, pure, Except.pure]

-- What is in the range of an array is there.
theorem contains_of_isArray (v : map.Verbatim) (w : map.WellFormed) (ha : map.kind.isArray)
    (hk : key.length = map.info.keySize.toNat) (hi : Bytes.toNat key < map.info.maxEntries.toNat) :
    map.entries.contains key := by
  obtain ⟨value, hg⟩ := w.slot ⟨ha, v.notHandleArray⟩ (hk.trans (w.keySize_of_isArray ha)) hi
  simp [Table.contains, hg]

theorem admits_eq (value : Bytes) {flags : UpdateFlags} (v : map.Verbatim) (w : map.WellFormed)
    (hk : key.length = map.info.keySize.toNat)
    (hi : map.kind.isArray → Bytes.toNat key < map.info.maxEntries.toNat) :
    admits map key flags = ((map.store key value flags).map fun _ => ()).mapError (.errno ·.errno) := by
  unfold admits KernelMap.store
  simp only [v.notHandleArray, Bool.false_eq_true, false_and, if_false]
  by_cases ha : map.kind.isArray
  case pos =>
    have hc := contains_of_isArray v w ha hk (hi ha)
    have hl : key.take 4 = key := List.take_of_length_le (by simp [hk, w.keySize_of_isArray ha])
    simp only [ha, hc, hl, not_le.mpr (hi ha), if_true, if_false, not_true, and_false, and_true, false_and]
    split <;> rfl
  case neg =>
    simp only [ha, Bool.false_eq_true, if_false]
    split
    case isTrue => rfl
    case isFalse =>
      split
      case isTrue => rfl
      case isFalse => split <;> rfl

theorem mapUpdate_eq (flags : UpdateFlags) (ho : machine.handles.get? fd = some (.map id))
    (hm : machine.maps.get? id = some map) (v : map.Verbatim) (w : map.WellFormed)
    (hk : key.length = map.info.keySize.toNat) (hv : value.length = map.valueLength)
    (hi : map.kind.isArray → Bytes.toNat key < map.info.maxEntries.toNat) :
    machine.mapUpdate fd key value flags =
      ((map.store key value flags).map fun map' => ((), machine.setMap id map')).mapError (.errno ·.errno) := by
  have hs : ¬(key.length ≠ map.info.keySize.toNat ∨ value.length ≠ map.valueLength) := by simp [hk, hv]
  simp only [mapUpdate, mapAt_eq ho hm, storedValue_eq v, admits_eq value v w hk hi, bind, Except.bind,
    if_neg hs]
  cases h : map.store key value flags
  case error r => rfl
  case ok map' => rw [KernelMap.store_eq_ok h]; rfl

theorem mapDelete_eq (key : Bytes) (ho : machine.handles.get? fd = some (.map id))
    (hm : machine.maps.get? id = some map) (ha : ¬map.kind.isArray) :
    machine.mapDelete fd key =
      if map.entries.contains key then
        .ok ((), machine.setMap id { map with entries := map.entries.erase key })
      else .error (.errno Errno.noEntry) := by
  simp only [mapDelete, mapAt_eq ho hm, bind, Except.bind, if_neg ha]
  rfl

theorem mapLookup_eq (ho : machine.handles.get? fd = some (.map id))
    (hm : machine.maps.get? id = some map) (hk : key.length = map.info.keySize.toNat) :
    machine.mapLookup fd key map.valueLength =
      match map.entries.get? key with
      | some value => .ok value
      | none       => .error (.errno Errno.noEntry) := by
  have hs : ¬(key.length ≠ map.info.keySize.toNat ∨ map.valueLength ≠ map.valueLength) := by simp [hk]
  simp only [mapLookup, mapAt_eq ho hm, bind, Except.bind, if_neg hs]
  rfl

end Machine

namespace KernelMap

variable {map map' : KernelMap} {key : Datum} {bytes : Bytes}

theorem size_form (w : map.WellFormed) : map.form.size = map.valueLength := by
  rw [w.valueLength]
  unfold form ValueForm.size ValueForm.slot Machine.valueLength
  split <;> simp_all

theorem encodeKey_eq_ok (h : map.encodeKey key = .ok bytes) :
    bytes.length = map.info.keySize.toNat ∧ (map.kind.isArray → Bytes.toNat bytes < map.info.maxEntries.toNat) := by
  unfold encodeKey at h
  split at h
  case h_1 => cases h
  case h_2 he =>
    split at h
    case isTrue => cases h
    case isFalse hi =>
      cases h
      exact ⟨Datum.length_of_encode he, fun ha => by_contra fun hn => hi ⟨ha, not_lt.mp hn⟩⟩

theorem length_of_encodeValue {value : Datum} (w : map.WellFormed) (h : map.encodeValue value = .ok bytes) :
    bytes.length = map.valueLength := by
  rw [encodeValue, mapError_eq_ok] at h
  exact (ValueForm.length_of_encode h).trans (size_form w)

-- A call sets an entry or takes one out, or leaves the map as it is.
theorem call_eq_ok {c : EntryCall} {value : Option Bytes} (h : map.call c = .ok (value, map')) :
    map' = map ∨ (∃ key value, map' = { map with entries := map.entries.insert key value }) ∨
      ¬map.kind.isArray ∧ ∃ key, map' = { map with entries := map.entries.erase key } := by
  have write {key value : Datum} {flags : UpdateFlags} {v : Option Bytes}
      (h : map.write key value flags = .ok (v, map')) :
      ∃ key value, map' = { map with entries := map.entries.insert key value } := by
    unfold KernelMap.write at h
    simp only [bind_eq_ok, pure_eq_ok, Prod.mk.injEq] at h
    obtain ⟨_, _, _, _, _, hs, _, rfl⟩ := h
    exact ⟨_, _, store_eq_ok hs⟩
  cases c
  case insert | update | upsert => exact .inr (.inl (write h))
  case delete key =>
    simp only [call] at h
    split at h
    case isTrue => cases h
    case isFalse hn =>
      obtain ⟨bytes, _, h⟩ := bind_eq_ok.mp h
      split at h <;> cases h
      exact .inr (.inr ⟨hn, bytes, rfl⟩)
  case lookup key =>
    obtain ⟨bytes, _, h⟩ := bind_eq_ok.mp h
    split at h <;> cases h
    exact .inl rfl

theorem entries_of_call {c : EntryCall} {value : Option Bytes} (h : map.call c = .ok (value, map')) :
    ∃ entries, map' = { map with entries } := by
  obtain rfl | ⟨_, _, rfl⟩ | ⟨_, _, rfl⟩ := call_eq_ok h
  all_goals exact ⟨_, rfl⟩

theorem sorted_of_call {c : EntryCall} {value : Option Bytes} (s : map.entries.Sorted)
    (h : map.call c = .ok (value, map')) : map'.entries.Sorted := by
  obtain rfl | ⟨key, value, rfl⟩ | ⟨_, key, rfl⟩ := call_eq_ok h
  case inl     => exact s
  case inr.inl => exact s.insert key value
  case inr.inr => exact s.erase key

end KernelMap

namespace Map

-- A map that is open on a map of the kernel and knows what it is.
structure Sees (m : Map) (id : Nat) (map : KernelMap) (h : Host) : Prop where
  sane    : h.Sane
  handle  : ∃ fd, m.handle = .live fd ∧ h.machine.handles.get? fd = some (.map id)
  there   : h.machine.maps.get? id = some map
  mirrors : m.Mirrors map

namespace Sees

variable {m : Map} {id : Nat} {map : KernelMap} {h h' : Host}

theorem wellFormed (o : m.Sees id map h) : map.WellFormed :=
  o.sane.maps _ _ o.there

theorem lookupOctets (o : m.Sees id map h) {fd : Fd} (hm : m.handle = .live fd) {key : Bytes}
    (hk : key.length = map.info.keySize.toNat) :
    Ends (m.lookupOctets fd key) h
      (fun value h' => map.entries.get? key = some value ∧ h'.machine.maps.get? id = some map)
      fun e h' => map.entries.get? key = none ∧ e = .notFound m.name ∧ h'.machine.maps.get? id = some map := by
  obtain ⟨fd', hm', ho⟩ := o.handle
  cases hm.symm.trans hm'
  have he := Machine.mapLookup_eq ho o.there hk
  have hr := o.sane.reply (.mapLookup fd key map.valueLength)
  have hh := o.sane.machine (.mapLookup fd key map.valueLength)
  simp only [Machine.answer, he] at hr hh
  simp only [Map.lookupOctets, bufferSize_eq o.mirrors, KernelMap.size_form o.wellFormed, ends_bind, ends_except]
  rw [ends_perform, ends_accept, hr, hh]
  cases hg : map.entries.get? key
  case some value => exact ⟨rfl, o.there⟩
  case none       => exact ⟨rfl, rfl, o.there⟩

theorem lookup (o : m.Sees id map h) (key : Datum) :
    Ends (m.lookup key) h
      (fun value h' => map.call (.lookup key) = .ok (some value, map) ∧ h'.machine.maps.get? id = some map)
      fun e h' => ∃ r, map.call (.lookup key) = .error r ∧ e = r.error m.name ∧
        h'.machine.maps.get? id = some map := by
  obtain ⟨fd, hm, ho⟩ := o.handle
  unfold Map.lookup KernelMap.call
  simp only [liveFd, hm, ends_bind, ends_except, encodeKey_eq o.mirrors o.wellFormed]
  cases hkey : map.encodeKey key
  case error r => exact ⟨r, rfl, rfl, o.there⟩
  case ok key =>
    refine (o.lookupOctets hm (KernelMap.encodeKey_eq_ok hkey).left).imp ?_ ?_
    case refine_1 =>
      intro value h' ⟨hg, ht⟩
      exact ⟨by simp [bind, Except.bind, hg, pure, Except.pure], ht⟩
    case refine_2 =>
      intro e h' ⟨hg, he, ht⟩
      exact ⟨.absent, by simp [bind, Except.bind, hg, throw, throwThe, MonadExceptOf.throw], he, ht⟩

end Sees

-- A map that is open on a map of the kernel which keeps what is written to it.
structure On (m : Map) (id : Nat) (map : KernelMap) (h : Host) : Prop where
  sane     : h.Sane
  handle   : ∃ fd, m.handle = .live fd ∧ h.machine.handles.get? fd = some (.map id)
  there    : h.machine.maps.get? id = some map
  mirrors  : m.Mirrors map
  verbatim : map.Verbatim

namespace On

variable {m : Map} {id : Nat} {map map' : KernelMap} {h h' : Host}

theorem sees (o : m.On id map h) : m.Sees id map h :=
  { o with }

theorem wellFormed (o : m.On id map h) : map.WellFormed :=
  o.sees.wellFormed

-- After work on entries the map is still open.
theorem leads (o : m.On id map h) (l : h.Leads (Request.Accesses m) h')
    (hm : h'.machine.maps.get? id = some { map with entries }) : m.On id { map with entries } h' where
  sane     := l.sane o.sane
  handle   := l.handles_of_accesses o.sane.faultless ▸ o.handle
  there    := hm
  mirrors  :=
    ⟨o.mirrors.kind, o.mirrors.keySize, o.mirrors.valueSize, o.mirrors.maxEntries, o.mirrors.cpus⟩
  verbatim := ⟨o.verbatim.notHandleArray, o.verbatim.notHashOfMaps⟩

theorem write (o : m.On id map h) (key value : Datum) (flags : UpdateFlags) :
    Ends (m.write key value flags) h
      (fun _ h' => ∃ map', map.write key value flags = .ok (none, map') ∧ h'.machine.maps.get? id = some map')
      fun e h' => ∃ r, map.write key value flags = .error r ∧ e = r.error m.name ∧
        h'.machine.maps.get? id = some map := by
  obtain ⟨fd, hm, ho⟩ := o.handle
  have hk : m.kind.isHandleArray = false := by
    rw [o.mirrors.kind]
    exact Bool.not_eq_true _ ▸ o.verbatim.notHandleArray
  unfold Map.write KernelMap.write
  simp only [liveFd, hm, ends_bind, ends_except, encodeKey_eq o.mirrors o.wellFormed,
    encodeValue_eq o.mirrors o.wellFormed, hk]
  cases hkey : map.encodeKey key
  case error r => exact ⟨r, rfl, rfl, o.there⟩
  case ok key =>
    obtain ⟨hl, hi⟩ := KernelMap.encodeKey_eq_ok hkey
    simp only [Except.mapError]
    cases hvalue : map.encodeValue value
    case error r => exact ⟨r, rfl, rfl, o.there⟩
    case ok value =>
      have hv := KernelMap.length_of_encodeValue o.wellFormed hvalue
      simp only [Bool.false_eq_true, false_and, if_false, ends_bind]
      -- Plain writes are asked for on arrays of handles only.
      generalize hf : (if m.kind.isHandleArray = true then UpdateFlags.any else flags) = flags'
      obtain rfl : flags = flags' := by simpa [hk] using hf
      have he := Machine.mapUpdate_eq flags ho o.there o.verbatim o.wellFormed hl hv hi
      have hr := o.sane.reply (.mapUpdate fd key value flags)
      have hh := o.sane.machine (.mapUpdate fd key value flags)
      simp only [Machine.answer, he] at hr hh
      rw [ends_perform, ends_accept, hr]
      cases hs : map.store key value flags
      case ok map' =>
        rw [hs] at hh
        refine ⟨map', by simp [bind, Except.bind, hs, pure, Except.pure], ?_⟩
        simp only [hh, Except.map, Except.mapError, Machine.settle, Machine.setMap, Table.get?_insert, if_true]
      case error r =>
        rw [hs] at hh
        refine ⟨r, by simp [bind, Except.bind, hs], ?_, ?_⟩
        case refine_2 => simpa [hh, Machine.settle, Except.map, Except.mapError] using o.there
        case refine_1 =>
          obtain rfl | rfl | ⟨rfl, hc⟩ := KernelMap.store_eq_error hs
          case inl     => rfl
          case inr.inl => rfl
          case inr.inr =>
            have ha : ¬m.kind.isArray := by
              rw [o.mirrors.kind]
              exact fun ha => hc (Machine.contains_of_isArray o.verbatim o.wellFormed ha hl (hi ha))
            simp [CallError.errno?, Refusal.errno, Refusal.error, Errno.tooBig, Errno.noEntry,
              Errno.entryExists, ha]

theorem delete (o : m.On id map h) (key : Datum) :
    Ends (m.delete key) h
      (fun _ h' => ∃ map', map.call (.delete key) = .ok (none, map') ∧
        h'.machine.maps.get? id = some map')
      fun e h' => ∃ r, map.call (.delete key) = .error r ∧ e = r.error m.name ∧
        h'.machine.maps.get? id = some map := by
  obtain ⟨fd, hm, ho⟩ := o.handle
  unfold Map.delete KernelMap.call
  simp only [liveFd, hm, ends_bind, ends_except, encodeKey_eq o.mirrors o.wellFormed]
  by_cases ha : map.kind.isArray
  case pos =>
    rw [if_pos (o.mirrors.kind ▸ ha), if_pos ha]
    exact ⟨_, rfl, by rw [← o.mirrors.kind]; rfl, o.there⟩
  case neg =>
    rw [if_neg (o.mirrors.kind ▸ ha), if_neg ha]
    cases hkey : map.encodeKey key
    case error r => exact ⟨r, rfl, rfl, o.there⟩
    case ok key =>
      have he := Machine.mapDelete_eq key ho o.there ha
      have hr := o.sane.reply (.mapDelete fd key)
      have hh := o.sane.machine (.mapDelete fd key)
      simp only [Machine.answer, he] at hr hh
      simp only [Except.mapError, ends_bind, ends_except]
      rw [ends_perform, ends_accept, hr, hh]
      by_cases hc : map.entries.contains key
      case pos =>
        rw [if_pos hc]
        refine ⟨{ map with entries := map.entries.erase key },
          by simp [bind, Except.bind, hc, pure, Except.pure], ?_⟩
        simp only [Machine.settle, Machine.setMap, Table.get?_insert, if_true]
      case neg =>
        rw [if_neg hc]
        exact ⟨.absent, by simp [bind, Except.bind, hc, throw, throwThe, MonadExceptOf.throw], rfl, o.there⟩

end On

end Map

end EbpfManager
