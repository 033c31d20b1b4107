import EbpfManager.Proofs.Entries.Processors
import EbpfManager.Proofs.Integers
import EbpfManager.Proofs.Utf8

namespace EbpfManager

namespace Bytes

theorem beforeZero_zeros (count : Nat) : beforeZero (List.replicate count 0) = [] := by
  cases count <;> rfl

end Bytes

namespace Text

-- One text behind the other.
def repeated (count : Nat) (text : String) : String :=
  String.ofList (List.replicate count text.toList).flatten

theorem toList_repeated (count : Nat) (text : String) :
    (repeated count text).toList = (List.replicate count text.toList).flatten :=
  String.toList_ofList

theorem encode_repeated (count : Nat) (text : String) :
    encode (repeated count text) = (List.replicate count (encode text)).flatten := by
  rw [encode, toList_repeated]
  induction count
  case zero          => rfl
  case succ count ih => rw [List.replicate_succ, List.flatten_cons, List.flatMap_append, ih]; rfl

theorem zero_not_mem_repeated {count : Nat} {text : String} (h : '\x00' ∉ text.toList) :
    '\x00' ∉ (repeated count text).toList := by
  rw [toList_repeated, List.mem_flatten]
  rintro ⟨cs, hcs, hz⟩
  exact h (List.eq_of_mem_replicate hcs ▸ hz)

-- A text is the same as several of it only if it is empty.
theorem repeated_eq_self_iff {count : Nat} {text : String} (h : text ≠ "") :
    repeated count text = text ↔ count = 1 := by
  constructor
  case mp =>
    intro he
    have hl := congrArg List.length (toList_repeated count text)
    rw [he, List.length_flatten, List.map_replicate, List.sum_replicate_nat] at hl
    have h0 : 0 < text.toList.length := List.length_pos_iff.mpr fun hn => h (String.toList_eq_nil_iff.mp hn)
    exact Nat.eq_of_mul_eq_mul_right h0 (hl.symm.trans (Nat.one_mul _).symm)
  case mpr =>
    rintro rfl
    simp [repeated]

-- A text is read as far as to a zero or to the end.
theorem ofPadded_encode {text : String} {rest : Bytes} (h : '\x00' ∉ text.toList) (hr : rest.beforeZero = []) :
    ofPadded (encode text ++ rest) = text := by
  rw [ofPadded, Bytes.beforeZero_append (zero_not_mem_encode h), hr, List.append_nil, decodeLossy_encode]

-- Copies with room behind them are read as far as to the end of the first one.
theorem ofPadded_copies {text : String} {count : Nat} (h : '\x00' ∉ text.toList) (hc : 0 < count) (room : Nat) :
    ofPadded (List.replicate count (encode text ++ List.replicate room 0)).flatten =
      if room = 0 then repeated count text else text := by
  cases room
  case zero =>
    have hr : ofPadded (encode (repeated count text) ++ []) = repeated count text :=
      ofPadded_encode (zero_not_mem_repeated h) rfl
    simpa [encode_repeated] using hr
  case succ room =>
    obtain ⟨count, rfl⟩ := Nat.exists_eq_succ_of_ne_zero hc.ne'
    rw [List.replicate_succ, List.flatten_cons, List.append_assoc, ofPadded_encode h, if_neg (Nat.succ_ne_zero _)]
    simp [Bytes.beforeZero, List.replicate_succ]

end Text

namespace Datum

variable {text : String} {width : Nat} {bytes : Bytes}

theorem encode_text_eq_ok (h : (Datum.text text).encode width = .ok bytes) :
    (Text.encode text).length ≤ width ∧
      bytes = Text.encode text ++ List.replicate (width - (Text.encode text).length) 0 := by
  rw [encode, encodeOctets, Bytes.padTo?] at h
  split at h
  case h_2 => cases h
  case h_1 hp =>
    cases h
    obtain ⟨hl, hp⟩ := Option.ite_none_right_eq_some.mp hp
    exact ⟨hl, (Option.some.inj hp).symm⟩

end Datum

namespace Map

variable {m : Map} {h h' : Host} {key value : Datum} {text : String} {work : Attempt Unit}

-- An open map that keeps values as they are, on a host on which nothing is out of order.
structure KeepsValues (m : Map) (h : Host) : Prop where
  live       : ∃ fd, m.handle = .live fd ∧ ∀ id map, h.machine.mapAt fd = .ok (id, map) → map.Verbatim
  faultless  : h.faults = []
  processors : m.kind.isPerCpu → 0 < m.cpus

theorem KeepsValues.lookup (o : m.KeepsValues h) (hw : work ∈ m.writes key value) (he : work h = .ok () h') :
    ∃ octets, m.encodeValue value = .ok octets ∧ ((m.lookup key).outcome h').1 = .ok octets := by
  obtain ⟨flags, rfl⟩ := exists_of_mem_writes hw
  obtain ⟨fd, hm, hv⟩ := o.live
  exact lookup_of_write o.faultless hm (fun id map octets hid _ => Machine.storedValue_eq (hv id map hid)) he

theorem lookupText_eq (m : Map) (key : Datum) (h : Host) :
    ((m.lookupText key).outcome h).1 = Text.ofPadded <$> ((m.lookup key).outcome h).1 :=
  Attempt.outcome_bind h fun _ _ => rfl

theorem lookupInteger_eq (key : Datum) (h : Host) (hp : ¬m.kind.isPerCpu) : ((m.lookupInteger key).outcome h).1 =
    ((m.lookup key).outcome h).1 >>= fun octets =>
      octets.decodeUnsigned.mapError (.invalidValue m.name <| .encoding ·) := by
  unfold lookupInteger
  rw [if_neg hp]
  refine Attempt.outcome_bind h fun octets h' => ?_
  cases octets.decodeUnsigned <;> rfl

-- A value for each processor, and a text that leaves no room in their slots.
def FillsSlots (m : Map) (text : String) : Prop :=
  m.kind.isPerCpu ∧ (Text.encode text).length = m.slotSize

instance : Decidable (m.FillsSlots text) := inferInstanceAs (Decidable (_ ∧ _))

theorem ofPadded_encodeValue {octets : Bytes} (ht : '\x00' ∉ text.toList) (hc : m.kind.isPerCpu → 0 < m.cpus)
    (hv : m.encodeValue (.text text) = .ok octets) :
    Text.ofPadded octets = if m.FillsSlots text then Text.repeated m.cpus text else text := by
  obtain ⟨total, _, ⟨hp, he⟩ | ⟨hp, _, bytes, hb, rfl⟩⟩ := encodeValue_eq_ok hv
  case inl =>
    have hp : ¬m.kind.isPerCpu := hp.resolve_right (by simp [Datum.octetLength?])
    obtain ⟨_, rfl⟩ := Datum.encode_text_eq_ok he
    rw [if_neg fun hf => hp hf.left, Text.ofPadded_encode ht (Bytes.beforeZero_zeros _)]
  case inr =>
    obtain ⟨hl, rfl⟩ := Datum.encode_text_eq_ok hb
    have hs := m.valueSize_le_slotSize
    -- The room behind the text in the value, and behind the value in the slot.
    have hslot : Text.encode text ++ List.replicate (m.valueSize - (Text.encode text).length) 0 ++
        List.replicate (m.slotSize - m.valueSize) 0 =
          Text.encode text ++ List.replicate (m.slotSize - (Text.encode text).length) 0 := by
      rw [List.append_assoc, List.replicate_append_replicate]
      congr 2
      omega
    have hfull : m.slotSize - (Text.encode text).length = 0 ↔ m.FillsSlots text := by
      rw [FillsSlots, and_iff_right hp]
      omega
    rw [copies, hslot, Text.ofPadded_copies ht (hc hp), if_congr hfull rfl rfl]

-- What is read where a text has been written.
structure ReadsText (m : Map) (h : Host) : Prop where
  read {key : Datum} {text : String} {work : Attempt Unit} {h' : Host} : '\x00' ∉ text.toList →
    work ∈ m.writes key (.text text) → work h = .ok () h' →
    ((m.lookupText key).outcome h').1 = .ok (if m.FillsSlots text then Text.repeated m.cpus text else text)
  as_written_iff {key : Datum} {text : String} {work : Attempt Unit} {h' : Host} : '\x00' ∉ text.toList →
    work ∈ m.writes key (.text text) → work h = .ok () h' →
    (((m.lookupText key).outcome h').1 = .ok text ↔ ¬(m.FillsSlots text ∧ 1 < m.cpus))

-- Where there is room for a value there is room in each slot.
theorem FillsSlots.ne_empty {octets : Bytes} (f : m.FillsSlots text) (hv : m.encodeValue (.text text) = .ok octets) :
    text ≠ "" := by
  rintro rfl
  obtain ⟨_, _, ⟨hp, _⟩ | ⟨_, h0, _⟩⟩ := encodeValue_eq_ok hv
  case inl => exact hp.elim (· f.left) (by simp [Datum.octetLength?])
  case inr => exact h0 f.right.symm

theorem KeepsValues.lookupText (o : m.KeepsValues h) (ht : '\x00' ∉ text.toList)
    (hw : work ∈ m.writes key (.text text)) (he : work h = .ok () h') :
    ((m.lookupText key).outcome h').1 = .ok (if m.FillsSlots text then Text.repeated m.cpus text else text) := by
  obtain ⟨octets, hv, hl⟩ := o.lookup hw he
  rw [lookupText_eq, hl, ← ofPadded_encodeValue ht o.processors hv]
  rfl

theorem KeepsValues.readsText (o : m.KeepsValues h) : m.ReadsText h where
  read := o.lookupText
  as_written_iff {key text work h'} ht hw he := by
    rw [o.lookupText ht hw he, Except.ok.injEq]
    by_cases hf : m.FillsSlots text
    case neg => simp [hf]
    case pos =>
      obtain ⟨_, hv, _⟩ := o.lookup hw he
      have h0 := o.processors hf.left
      rw [if_pos hf, Text.repeated_eq_self_iff (hf.ne_empty hv), and_iff_right hf]
      omega

-- A number is written with its sign if it has one, but it is read as a number without.
theorem KeepsValues.lookupInteger {v : Int} (o : m.KeepsValues h) (hp : ¬m.kind.isPerCpu)
    (hi : Datum.IsIntegerWidth m.valueSize) (h0 : 0 ≤ v) (hw : work ∈ m.writes key (.integer v))
    (he : work h = .ok () h') : ((m.lookupInteger key).outcome h').1 = .ok v.toNat := by
  obtain ⟨octets, hv, hl⟩ := o.lookup hw he
  obtain ⟨total, hs, ⟨_, hb⟩ | ⟨hp', _⟩⟩ := encodeValue_eq_ok hv
  case inr => exact (hp hp').elim
  case inl =>
    rw [bufferSize, if_neg hp] at hs
    cases hs
    rw [lookupInteger_eq key h' hp, hl, ok_bind, Datum.decodeUnsigned_of_encode_nonneg hi h0 hb]
    rfl

end Map

namespace Session

variable {s : Session} {place : MapRef} {m : Map} {fd : Fd}

theorem Reached.keepsValues (r : s.Reached) (h : s.map? place = some m) (hm : m.handle = .live fd)
    (ha : ¬m.kind.isHandleArray) (hh : m.kind ≠ .hashOfMaps) : m.KeepsValues s.host := by
  obtain ⟨id, map, hg, hmap, d⟩ := r.open h hm
  refine ⟨⟨fd, hm, fun id' map' hid => ?_⟩, r.told.sane.faultless, fun hp => d.cpus hp ▸ by decide⟩
  obtain ⟨hg', hmap'⟩ := Machine.mapAt_eq_ok hid
  cases hg.symm.trans hg'
  cases hmap.symm.trans hmap'
  exact ⟨d.kind ▸ ha, d.kind ▸ hh⟩

-- Numbers and values for each processor, both of eight octets.
def withTallies : Session :=
  [.newMap "sums" ⟨"sums", .hash, 4, 8, 16, 0, none, none, 1, .unset⟩, .onMap (.own "sums") .create,
    .newMap "parts" ⟨"parts", .perCpuArray, 4, 8, 2, 0, none, none, 1, .unset⟩, .onMap (.own "parts") .create].foldl
      (fun s c => (s.run c).2) {}

theorem withTallies_reached : withTallies.Reached :=
  .run _ ⟨trivial, nofun⟩ <| .run _ ⟨rfl, nofun⟩ <| .run _ ⟨trivial, nofun⟩ <|
    .run _ ⟨rfl, nofun⟩ <| .fresh .empty

def sums : Map :=
  ⟨"sums", .hash, 4, 8, 16, 0, none, none, 1, .live 3⟩

def parts : Map :=
  ⟨"parts", .perCpuArray, 4, 8, 2, 0, none, none, 2, .live 4⟩

theorem sums_there : withTallies.map? (.own "sums") = some sums := by decide +kernel

theorem parts_there : withTallies.map? (.own "parts") = some parts := by decide +kernel

end Session

namespace Map

-- Integers in fields that hold them, and what is read of them in the maps that are open in a session.
theorem reads_integers :
    (∀ {width : Nat}, Datum.IsIntegerWidth width → Datum.Corresponds width) ∧
      (∀ {bytes : Bytes}, ¬Datum.IsIntegerWidth bytes.length →
        bytes.decodeUnsigned = .error (.unsupportedWidth bytes.length)) ∧
      (∀ {m : Map} {h h' : Host} {key : Datum} {v : Int} {work : Attempt Unit}, m.KeepsValues h →
        ¬m.kind.isPerCpu →
        Datum.IsIntegerWidth m.valueSize → 0 ≤ v → work ∈ m.writes key (.integer v) → work h = .ok () h' →
        ((m.lookupInteger key).outcome h').1 = .ok v.toNat) ∧
      ∀ {s : Session} {place : MapRef} {m : Map} {fd : Fd}, s.Reached → s.map? place = some m →
        m.handle = .live fd →
        ¬m.kind.isHandleArray → m.kind ≠ .hashOfMaps → m.KeepsValues s.host :=
  ⟨Datum.corresponds, fun hw => if_neg hw, fun o hp hi h0 hw he => o.lookupInteger hp hi h0 hw he,
    Session.Reached.keepsValues⟩

-- The greatest number of 16 bits, which has the octets of -1, and the greatest one of 64 bits in a map.
theorem reads_integers_of_sums :
    ((Datum.integer 65535).encode 2 = .ok [255, 255] ∧ Bytes.decodeUnsigned [255, 255] = .ok 65535) ∧
    (Datum.integer (-1)).encode 2 = .ok [255, 255] ∧
    Bytes.decodeUnsigned [1, 2, 3] = .error (.unsupportedWidth 3) ∧
    ∃ h', Session.sums.upsert (.integer 1) (.integer 18446744073709551615) Session.withTallies.host = .ok () h' ∧
      ((Session.sums.lookupInteger (.integer 1)).outcome h').1 = .ok 18446744073709551615 := by
  obtain ⟨hc, hr, hi, hk⟩ := reads_integers
  have c : Datum.Corresponds 2 := hc (by decide)
  have he : (Datum.integer 65535).encode 2 = .ok [255, 255] := by decide +kernel
  have o : Session.sums.KeepsValues Session.withTallies.host :=
    hk Session.withTallies_reached Session.sums_there rfl (by decide) (by decide)
  obtain ⟨h', hu⟩ : ∃ h',
      Session.sums.upsert (.integer 1) (.integer 18446744073709551615) Session.withTallies.host = .ok () h' :=
    Attempt.exists_eq_ok (by decide +kernel)
  refine ⟨⟨he, (c.read he).right (by decide)⟩, by decide +kernel, hr (by decide), h', hu, ?_⟩
  exact hi o (by decide) (by decide) (by decide : (0 : Int) ≤ 18446744073709551615) (upsert_mem_writes ..) hu

-- What is read where a text has been written, and that this is so of the map wherever it is open in a session.
theorem reads_text (m : Map) :
    (∀ {h : Host}, m.KeepsValues h → m.ReadsText h) ∧
      ∀ {s : Session} {place : MapRef} {fd : Fd}, s.Reached → s.map? place = some m → m.handle = .live fd →
        ¬m.kind.isHandleArray → m.kind ≠ .hashOfMaps →
        m.KeepsValues s.host ∧ (m.kind.isPerCpu → m.cpus = Machine.cpus) := by
  refine ⟨KeepsValues.readsText, fun {s place fd} r h hm ha hh => ⟨r.keepsValues h hm ha hh, fun hp => ?_⟩⟩
  obtain ⟨_, _, _, _, d⟩ := r.open h hm
  exact d.cpus hp

-- A text that fills the value of a map, and one with a zero behind it in the slot of each processor.
theorem reads_text_of_tallies :
    (∃ h', Session.sums.upsert (.integer 1) (.text "complete") Session.withTallies.host = .ok () h' ∧
      ((Session.sums.lookupText (.integer 1)).outcome h').1 = .ok "complete") ∧
    ∃ h', Session.parts.update (.integer 1) (.text "partial") Session.withTallies.host = .ok () h' ∧
      ((Session.parts.lookupText (.integer 1)).outcome h').1 = .ok "partial" := by
  obtain ⟨hr, hk⟩ := reads_text Session.sums
  obtain ⟨hr', hk'⟩ := reads_text Session.parts
  have k := hr (hk Session.withTallies_reached Session.sums_there rfl (by decide) (by decide)).left
  have k' := hr' (hk' Session.withTallies_reached Session.parts_there rfl (by decide) (by decide)).left
  obtain ⟨h₁, h1⟩ : ∃ h',
      Session.sums.upsert (.integer 1) (.text "complete") Session.withTallies.host = .ok () h' :=
    Attempt.exists_eq_ok (by decide +kernel)
  obtain ⟨h₂, h2⟩ : ∃ h',
      Session.parts.update (.integer 1) (.text "partial") Session.withTallies.host = .ok () h' :=
    Attempt.exists_eq_ok (by decide +kernel)
  refine ⟨⟨h₁, h1, ?_⟩, h₂, h2, ?_⟩
  case refine_1 => exact (k.as_written_iff (by decide) (upsert_mem_writes ..) h1).mpr (by decide)
  case refine_2 => exact (k'.as_written_iff (by decide) (update_mem_writes ..) h2).mpr (by decide)

-- A text of eight octets in slots of eight octets: what is read is the text of one processor and, as there is
-- no zero between them, that of the other.
theorem full_slots_read_on : ¬∀ {m : Map} {h h' : Host} {key : Datum} {text : String} {work : Attempt Unit},
    m.KeepsValues h → '\x00' ∉ text.toList → work ∈ m.writes key (.text text) → work h = .ok () h' →
    ((m.lookupText key).outcome h').1 = .ok text := by
  intro hr
  have o : Session.parts.KeepsValues Session.withTallies.host :=
    Session.withTallies_reached.keepsValues Session.parts_there rfl (by decide) (by decide)
  obtain ⟨h', hu⟩ : ∃ h',
      Session.parts.upsert (.integer 0) (.text "complete") Session.withTallies.host = .ok () h' :=
    Attempt.exists_eq_ok (by decide +kernel)
  have ht : '\x00' ∉ "complete".toList := by decide
  have hw := Session.parts.upsert_mem_writes (.integer 0) (.text "complete")
  have he := (o.lookupText ht hw hu).symm.trans (hr o ht hw hu)
  revert he
  decide +kernel

end Map

end EbpfManager
