import EbpfManager.Proofs.Building.Lookups

namespace EbpfManager

theorem forall₂_flatMap {α β γ : Type} {r : β → γ → Prop} {as : List α} {f : α → List β}
    {g : α → List γ} (h : ∀ a ∈ as, List.Forall₂ r (f a) (g a)) :
    List.Forall₂ r (as.flatMap f) (as.flatMap g) := by
  induction as
  case nil => exact .nil
  case cons a as ih =>
    rw [List.flatMap_cons, List.flatMap_cons]
    exact List.rel_append (h a List.mem_cons_self) (ih fun a ha => h a (List.mem_cons_of_mem _ ha))

theorem Bytes.slice?_slice? {bs piece piece' : Bytes} {start start' count count' : Nat}
    (h : bs.slice? start count = some piece) (h' : piece.slice? start' count' = some piece') :
    bs.slice? (start + start') count' = some piece' := by
  obtain ⟨hl, rfl⟩ := slice?_eq_some.mp h
  obtain ⟨hl', rfl⟩ := slice?_eq_some.mp h'
  rw [List.length_take, List.length_drop] at hl'
  refine slice?_eq_some.mpr ⟨by omega, ?_⟩
  rw [List.drop_take, List.take_take, List.drop_drop]
  congr 1
  omega

theorem ByteOrder.toInt_zeros (count : Nat) : ByteOrder.little.toInt (List.replicate count 0) = 0 := by
  have hn : Bytes.toNat (List.replicate count 0) = 0 := by
    induction count
    case zero => rfl
    case succ count ih => simp [List.replicate_succ, Bytes.toNat, ih]
  rw [ByteOrder.toInt, Bytes.toInt, hn, Int.natCast_zero, Int.zero_bmod]

namespace Object

open Elf

section Marks

variable {s : DraftSymbol} {place : Nat → Nat} {number : Nat} {kind : Option SymbolKind}

theorem mark?_read (hn : s.number = number) (h0 : number ≠ 0) (hf : ∀ k ∈ kind, (s.read place).kind = k)
    (hname : s.name ≠ "") : mark? (place number) kind (s.read place) = some ⟨s.value, s.size, s.name⟩ := by
  have hk : (s.read place).kind ≠ .sectionStart := by
    unfold DraftSymbol.read
    split <;> exact fun h => nomatch h
  refine mark?_eq_some.mpr ⟨rfl, ?_, hk, hf, hname, rfl, rfl⟩
  exact (if_neg (hn ▸ h0)).trans (congrArg (some <| place ·) hn)

theorem mark?_read_of_ne (hp : StrictMono place) (hn : s.number ≠ number) :
    mark? (place number) kind (s.read place) = none := by
  refine Option.eq_none_iff_forall_ne_some.mpr fun m hm => ?_
  obtain ⟨_, hin, _⟩ := mark?_eq_some.mp hm
  obtain ⟨_, hin⟩ := Option.ite_none_left_eq_some.mp hin
  exact hn (hp.injective (Option.some_inj.mp hin))

theorem mark?_read_of_not (hf : s.isFunction = false) : mark? number (some .function) (s.read place) = none := by
  refine Option.eq_none_iff_forall_ne_some.mpr fun m hm => ?_
  obtain ⟨_, _, _, hk, _⟩ := mark?_eq_some.mp hm
  simp [DraftSymbol.read, hf] at hk

end Marks

namespace Description

variable {d : Description} {image : Image} {place : Nat → Nat} {m : MapSpec} {position : Nat}

theorem mapsNumber_ne (h : d.maps ≠ []) : d.mapsNumber ≠ 0 := by
  have hm : d.maps.isEmpty = false := List.isEmpty_eq_false_iff.mpr h
  simp [mapsNumber, leadingNames, hm]

section Records

-- The record of a map as it is read.
def raw (d : Description) (a : MapSpec × Nat) : RawRecord where
  offset     := a.2
  length     := d.recordSize
  name       := a.1.name
  kindNumber := a.1.kindNumber
  keySize    := a.1.keySize
  valueSize  := a.1.valueSize
  maxEntries := a.1.maxEntries
  flags      := a.1.flags

theorem read_record (hd : d.WellFormed) {a : MapSpec × Nat} (h : a ∈ d.mapsLaid) :
    RawRecord.read .little d.mapsSection.contents (pieceRange (MapSpec.record d.recordSize) MapSpec.name a) =
      .ok (d.raw a) := by
  obtain ⟨hle, hge⟩ := hd.recordSize
  have hl := length_record hd a.1
  have hlr : (pieceRange (MapSpec.record d.recordSize) MapSpec.name a).length = d.recordSize := by
    rw [Range.length, pieceRange, hl, Nat.add_sub_cancel_left]
  obtain ⟨hc, hs⟩ := Bytes.slice?_eq_some.mp (slice?_laid (by decide) h)
  have hn : ¬((pieceRange (MapSpec.record d.recordSize) MapSpec.name a).length < leastRecordSize ∨
      d.mapsSection.contents.length < (pieceRange (MapSpec.record d.recordSize) MapSpec.name a).stop) := by
    rw [hlr, not_or, Nat.not_lt, Nat.not_lt]
    exact ⟨hle, hc⟩
  have hrecord : (d.mapsSection.contents.drop a.2).take d.recordSize = a.1.record d.recordSize := by
    rw [hl] at hs
    exact hs.symm
  -- The numbers are in the part of the record that is not cut off.
  have hfield {i : Nat} (hi : i ≤ 4) : ((a.1.record d.recordSize).drop (4 * i)).take 4 =
      ((a.1.record 40).drop (4 * i)).take 4 := by
    have h20 : leastRecordSize = 20 := rfl
    rw [MapSpec.record, MapSpec.record, List.drop_take, List.take_take, List.drop_take, List.take_take]
    congr 1
    omega
  generalize a.1.record d.recordSize = r at hrecord hfield
  obtain ⟨kind, hk, _⟩ := hd.kind a.1 (fst_mem_of_mem_laid h)
  have hkind : Bytes.toNat (Bytes.ofNat 4 a.1.kindNumber) = a.1.kindNumber := by
    have hlt := MapKind.number_of_ofNumber? hk ▸ kind.number_lt
    rw [Bytes.toNat_ofNat, Nat.mod_eq_of_lt (hlt.trans (by decide))]
  have h0 : (r.drop (4 * 0)).take 4 = Bytes.ofNat 4 a.1.kindNumber := hfield (by decide)
  have h1 : (r.drop (4 * 1)).take 4 = Bytes.ofNat 4 a.1.keySize.toNat := hfield (by decide)
  have h2 : (r.drop (4 * 2)).take 4 = Bytes.ofNat 4 a.1.valueSize.toNat := hfield (by decide)
  have h3 : (r.drop (4 * 3)).take 4 = Bytes.ofNat 4 a.1.maxEntries.toNat := hfield (by decide)
  have h4 : (r.drop (4 * 4)).take 4 = Bytes.ofNat 4 a.1.flags.toNat := hfield (by decide)
  unfold RawRecord.read
  rw [if_neg hn, hlr, Nat.min_eq_left hge]
  simp only [pieceRange, hrecord, h0, h1, h2, h3, h4, ofNat_word]
  simp only [ByteOrder.toNat, hkind]
  rfl

theorem shape_raw (hd : d.WellFormed) {a : MapSpec × Nat} (h : a.1 ∈ d.maps) :
    (d.raw a).shape = .ok a.1.shape := by
  obtain ⟨kind, hk, _⟩ := hd.kind a.1 h
  rw [RawRecord.shape, MapSpec.shape, raw, hk]
  rfl

-- Only the symbols of maps are in the section of the maps.
theorem marks_maps (hd : d.WellFormed) (h : d.draft.Shows place image) (hm : d.maps ≠ []) :
    image.symbols.filterMap (mark? (place d.mapsNumber) none) =
      d.mapsLaid.map (pieceMark (MapSpec.record d.recordSize) MapSpec.name) := by
  have hmaps : (d.mapSymbols.map (DraftSymbol.read place)).filterMap (mark? (place d.mapsNumber) none) =
      d.mapsLaid.map (pieceMark (MapSpec.record d.recordSize) MapSpec.name) := by
    rw [mapSymbols, mapsLaid, laid, List.map_map, List.filterMap_map, List.map_map, ← List.filterMap_eq_map]
    refine List.filterMap_congr fun a ha => ?_
    have hname := (hd.mapName a.1 (List.fst_mem_of_mem_zipIdx ha)).left
    let s : DraftSymbol := ⟨a.1.name, false, d.mapsNumber, d.recordOffset a.2, d.recordSize⟩
    have hs : mark? (place d.mapsNumber) none (s.read place) = some ⟨d.recordOffset a.2, d.recordSize, a.1.name⟩ :=
      mark?_read rfl (mapsNumber_ne hm) (by simp) hname
    simp only [Function.comp, pieceMark, length_record hd]
    exact hs
  have hothers : ((d.programSymbols ++ d.textSymbols).map (DraftSymbol.read place)).filterMap
      (mark? (place d.mapsNumber) none) = [] := by
    rw [List.filterMap_map, List.filterMap_eq_nil_iff]
    intro s hs
    refine mark?_read_of_ne h.ascending ?_
    rcases List.mem_append.mp hs with hs | hs
    case inl =>
      obtain ⟨⟨p, position⟩, _, hs⟩ := List.mem_filterMap.mp hs
      obtain ⟨name, _, rfl⟩ := Option.map_eq_some_iff.mp hs
      simp only [programsNumber, mapsNumber]
      omega
    case inr =>
      obtain ⟨⟨⟨m, position⟩, k⟩, _, rfl⟩ := List.mem_map.mp hs
      simp only [textsNumber, mapsNumber]
      omega
  have hsymbols : d.draft.symbols = d.mapSymbols ++ (d.programSymbols ++ d.textSymbols) := by
    simp [draft, symbols, definedSymbols, undefinedNames_eq_nil hd]
  rw [h.symbols, hsymbols, List.map_append, List.filterMap_append, hmaps, hothers, List.append_nil]

end Records

section References

-- Where the record of a map with a name begins.
def addressOf (d : Description) (name : String) : Nat :=
  d.recordOffset (d.symbolNumber name - 1)

-- The references from the record of a map.
def referencesFrom (d : Description) (a : MapSpec × Nat) : List (Nat × Reference) :=
  (a.1.inner.toList.map fun name => (d.recordOffset a.2, .inner (d.addressOf name))) ++
    a.1.pin.toList.map fun path => (d.recordOffset a.2, .pin ⟨path⟩)

def references (d : Description) : List (Nat × Reference) :=
  d.maps.zipIdx.flatMap d.referencesFrom

theorem find?_raw (hd : d.WellFormed) {a : MapSpec × Nat} {offset : Nat} (ha : a ∈ d.mapsLaid)
    (ho : a.2 ≤ offset ∧ offset < a.2 + d.recordSize) :
    (d.mapsLaid.map d.raw).find? (·.Contains offset) = some (d.raw a) := by
  have hf : d.mapsLaid.find? (fun a => (d.raw a).Contains offset) = some a := by
    refine find?_of_unique ha (decide_eq_true ho) fun b hb hc => ?_
    have hc : b.2 ≤ offset ∧ offset < b.2 + d.recordSize := of_decide_eq_true hc
    rw [← length_record hd a.1] at ho
    rw [← length_record hd b.1] at hc
    exact eq_of_mem_laid (by decide) hb ha hc ho
  rw [List.find?_map]
  exact congrArg (Option.map d.raw) hf

theorem recordSize_eq (hd : d.WellFormed) (hf : d.hasReferences) : d.recordSize = 40 :=
  Nat.le_antisymm hd.recordSize.right (of_decide_eq_true hf)

-- The references stay empty in the section itself.
theorem inPlace_eq (hd : d.WellFormed) (hf : d.hasReferences) (h : d.maps[position]? = some m) {field : Nat}
    (hfield : field = innerField ∨ field = pinField) :
    ((d.mapsSection.contents.slice? (d.recordOffset position + field) 8).map
      ByteOrder.little.toInt).getD 0 = 0 := by
  have hs := slice?_laid (by decide) (mem_mapsLaid h)
  have hz : (m.record d.recordSize).slice? field 8 = some (List.replicate 8 0) := by
    rw [recordSize_eq hd hf]
    rcases hfield with rfl | rfl <;> rfl
  have hp := Bytes.slice?_slice? hs hz
  rw [mapsSection, hp, Option.map_some, Option.getD_some, ByteOrder.toInt_zeros]

-- A relocation changes a field of the record that it is in.
theorem referenceOf_eq (hd : d.WellFormed) (h : d.draft.Shows place image) (hf : d.hasReferences)
    (hm : d.maps[position]? = some m) {field number : Nat} (hfield : field = innerField ∨ field = pinField)
    {t : Target}
    (ht : target image "maps" (readRelocation (d.recordOffset position + field, number)) 0 = .ok t) :
    referenceOf image (place d.mapsNumber) d.mapsSection.contents (d.mapsLaid.map d.raw)
      (readRelocation (d.recordOffset position + field, number)) =
        if field = innerField then
          if t.number = place d.mapsNumber then .ok (d.recordOffset position, .inner t.address)
          else .error (.unsupportedRelocation "maps" (d.recordOffset position + field))
        else (do
          let path ← pinPathAt image m.name t
          .ok (d.recordOffset position, .pin path)) := by
  have ho : d.recordOffset position ≤ d.recordOffset position + field ∧
      d.recordOffset position + field < d.recordOffset position + d.recordSize := by
    rw [recordSize_eq hd hf]
    rcases hfield with rfl | rfl <;> simp only [innerField, pinField] <;> omega
  have hoffset : (readRelocation (d.recordOffset position + field, number)).offset =
      d.recordOffset position + field := rfl
  generalize readRelocation (d.recordOffset position + field, number) = r at ht hoffset ⊢
  rw [← hoffset] at ho ⊢
  have hfind := find?_raw hd (mem_mapsLaid hm) ho
  have hz : ((d.mapsSection.contents.slice? r.offset 8).map image.order.toInt).getD 0 = 0 := by
    rw [hoffset, h.order]
    exact inPlace_eq hd hf hm hfield
  have hs : r.offset - (d.raw (m, d.recordOffset position)).offset = field :=
    hoffset ▸ Nat.add_sub_cancel_left ..
  unfold referenceOf
  rw [hfind]
  simp only [hz, ht, hs]
  rcases hfield with rfl | rfl
  case inl => rfl
  case inr =>
    have hne : pinField ≠ innerField := by decide
    simp only [if_neg hne, if_true]
    rfl

theorem referenceOf_inner (hd : d.WellFormed) (b : image.Bounded) (h : d.draft.Shows place image)
    (hf : d.hasReferences) (hm : d.maps[position]? = some m) {name : String}
    (hn : name ∈ d.maps.map MapSpec.name) :
    referenceOf image (place d.mapsNumber) d.mapsSection.contents (d.mapsLaid.map d.raw)
      (readRelocation (d.recordOffset position + innerField, d.symbolNumber name)) =
        .ok (d.recordOffset position, .inner (d.addressOf name)) := by
  obtain ⟨position', m', hm', _, he⟩ := exists_map hd hn
  have hv : d.recordOffset position' < Bytes.limit 8 := by
    have hle := record_le hd hm'
    have hlt := h.contents_lt b (mapsSection_mem (List.mem_of_getElem? hm'))
    omega
  have ht := target_shown h (symbols_defined (definedSymbols_map hm'))
    (mapsNumber_ne (List.ne_nil_of_mem (List.mem_of_getElem? hm))) hv "maps"
    (d.recordOffset position + innerField)
  have ha : d.addressOf name = d.recordOffset position' := by rw [addressOf, he, Nat.add_sub_cancel]
  rw [he, ha, referenceOf_eq hd h hf hm (.inl rfl) ht, if_pos rfl, if_pos rfl]

theorem referenceOf_pin (hd : d.WellFormed) (b : image.Bounded) (h : d.draft.Shows place image)
    (hf : d.hasReferences) (hm : d.maps[position]? = some m) {path : String} (hp : m.pin = some path) :
    referenceOf image (place d.mapsNumber) d.mapsSection.contents (d.mapsLaid.map d.raw)
      (readRelocation (d.recordOffset position + pinField,
        d.definedSymbols.length + d.pinned.findIdx (·.2 = position) + 1)) =
        .ok (d.recordOffset position, .pin ⟨path⟩) := by
  have hpinned := pinned_findIdx hf hm (Option.isSome_of_eq_some hp)
  generalize d.pinned.findIdx (·.2 = position) = k at hpinned ⊢
  obtain ⟨front, rest, hc, hl⟩ := textSection_eq hpinned hp
  have hv : d.textOffset k < Bytes.limit 8 := by
    have hle := text_le hpinned
    have hlt := h.contents_lt b d.textSection_mem
    omega
  have ht := target_shown h (symbols_text hpinned) (Nat.succ_ne_zero _) hv "maps"
    (d.recordOffset position + pinField)
  have hs : d.draft.sections[d.leadingNames.length + d.sectionNames.length]? = some d.textSection := by
    rw [sections_eq, List.getElem?_append_right (by simp [length_leadingSections])]
    simp [length_leadingSections]
  have hproper := hd.pin m (List.mem_of_getElem? hm) path hp
  have htext : (Text.ofTerminated? (d.textSection.contents.drop (d.textOffset k))).filter (· ≠ "") =
      some path := by
    rw [hc, ← hl, List.drop_left, ofTerminated?_encode hproper]
    exact Option.filter_some_pos (decide_eq_true hproper.left)
  have hpath : pinPathAt image m.name ⟨place d.textsNumber, d.textOffset k⟩ = .ok ⟨path⟩ := by
    unfold pinPathAt
    have hsection : image.sections[place d.textsNumber]? = some d.textSection.read := h.own hs
    simp only [hsection]
    refine bind_eq_ok.mpr ⟨d.textSection.contents, rfl, ?_⟩
    simp only [htext]
  rw [referenceOf_eq hd h hf hm (.inr rfl) ht, if_neg (by decide), hpath]
  rfl

theorem mapM_references (hd : d.WellFormed) (b : image.Bounded) (h : d.draft.Shows place image) :
    (d.mapsSection.read.relocations.mapM
      (referenceOf image (place d.mapsNumber) d.mapsSection.contents (d.mapsLaid.map d.raw))) = .ok d.references := by
  have hrelocations : d.mapsSection.read.relocations = d.mapRelocations.map readRelocation := rfl
  refine mapM_eq_ok.mpr ?_
  rw [hrelocations, List.forall₂_map_left_iff, mapRelocations]
  split
  case isTrue hf =>
    refine forall₂_flatMap fun (m, position) hm => ?_
    have hm := List.mk_mem_zipIdx_iff_getElem?.mp hm
    refine List.rel_append ?_ ?_
    case refine_1 =>
      rw [List.forall₂_map_left_iff, List.forall₂_map_right_iff, List.forall₂_same]
      intro name hn
      have hn := hd.inner m (List.mem_of_getElem? hm) name (Option.mem_toList.mp hn)
      exact referenceOf_inner hd b h hf hm hn
    case refine_2 =>
      cases hp : m.pin
      case none => simp
      case some path =>
        simpa using referenceOf_pin hd b h hf hm hp
  case isFalse hf =>
    have hlt : d.recordSize < fullRecordSize := Nat.lt_of_not_le fun hle => hf (decide_eq_true hle)
    have hn : d.references = [] := by
      refine List.flatMap_eq_nil_iff.mpr fun a ha => ?_
      obtain ⟨hi, hp⟩ := hd.short hlt a.1 (List.fst_mem_of_mem_zipIdx ha)
      simp [referencesFrom, hi, hp]
    rw [hn]
    exact .nil

theorem recordOffset_ne (hd : d.WellFormed) {m' : MapSpec} {position' : Nat} (h : d.maps[position]? = some m)
    (h' : d.maps[position']? = some m') (hne : position ≠ position') :
    d.recordOffset position ≠ d.recordOffset position' := by
  have hp : d.mapsLaid.Pairwise (·.2 ≠ ·.2) :=
    (laid_ascending (by decide) fun m _ => record_ne_nil hd m).imp Nat.ne_of_lt
  have hget {m : MapSpec} {position : Nat} (h : d.maps[position]? = some m) :
      d.mapsLaid[position]? = some (m, d.recordOffset position) := by
    rw [mapsLaid, laid, List.getElem?_map, List.getElem?_zipIdx, h, Option.map_some, Nat.zero_add]
    rfl
  exact pairwise_getElem? (p := fun a b : MapSpec × Nat => a.2 ≠ b.2) Ne.symm hp (hget h) (hget h') hne

-- The references of a record are those of its map.
theorem filterMap_references {α : Type} (hd : d.WellFormed) (hm : d.maps[position]? = some m)
    {f : Nat × Reference → Option α} (hf : ∀ a, a.1 ≠ d.recordOffset position → f a = none) :
    d.references.filterMap f = (d.referencesFrom (m, position)).filterMap f := by
  rw [references, List.filterMap_flatMap]
  refine flatMap_of_unique (nodup_zipIdx _) (List.mk_mem_zipIdx_iff_getElem?.mpr hm)
    fun (m', position') hm' hne => ?_
  have hm' := List.mk_mem_zipIdx_iff_getElem?.mp hm'
  have ho : d.recordOffset position' ≠ d.recordOffset position := by
    refine recordOffset_ne hd hm' hm fun he => hne ?_
    subst he
    rw [Option.some_inj.mp (hm'.symm.trans hm)]
  refine List.filterMap_eq_nil_iff.mpr fun a ha => hf a ?_
  rcases List.mem_append.mp ha with ha | ha <;> obtain ⟨_, _, rfl⟩ := List.mem_map.mp ha <;> exact ho

theorem innerAddress?_eq (hd : d.WellFormed) (hm : d.maps[position]? = some m) :
    innerAddress? d.references (d.recordOffset position) = m.inner.map d.addressOf := by
  refine (congrArg List.getLast? (filterMap_references hd hm ?_)).trans ?_
  case refine_1 =>
    rintro ⟨owner, reference⟩ hne
    cases reference <;> simp [hne]
  case refine_2 => cases hi : m.inner <;> cases hp : m.pin <;> simp [referencesFrom, hi, hp]

theorem pinPath?_eq (hd : d.WellFormed) (hm : d.maps[position]? = some m) :
    pinPath? d.references (d.recordOffset position) = m.pin.map Path.mk := by
  refine (congrArg List.getLast? (filterMap_references hd hm ?_)).trans ?_
  case refine_1 =>
    rintro ⟨owner, reference⟩ hne
    cases reference <;> simp [hne]
  case refine_2 => cases hi : m.inner <;> cases hp : m.pin <;> simp [referencesFrom, hi, hp]

end References

section Definitions

def mapRecord (d : Description) (a : MapSpec × Nat) : MapRecord :=
  ⟨a.2, d.mapDefinition a.1⟩

theorem find?_offset (hd : d.WellFormed) {a : MapSpec × Nat} (ha : a ∈ d.mapsLaid) :
    d.mapsLaid.find? (·.2 = a.2) = some a :=
  find?_of_unique ha (decide_eq_true rfl) fun _ hb ho =>
    eq_of_offset (by decide) (fun m _ => record_ne_nil hd m) hb ha (of_decide_eq_true ho)

theorem find?_name (hd : d.WellFormed) (hm : m ∈ d.maps) : d.maps.find? (·.name = m.name) = some m := by
  have hn : (d.maps.map MapSpec.name).Nodup := (List.nodup_append.mp hd.distinct).left
  exact find?_of_unique hm (decide_eq_true rfl) fun _ hb he =>
    List.inj_on_of_nodup_map hn hb hm (of_decide_eq_true he)

theorem innerShape_eq (hd : d.WellFormed) (hm : d.maps[position]? = some m) :
    innerShape (d.mapsLaid.map d.raw) d.references (d.raw (m, d.recordOffset position)) =
      .ok (d.mapDefinition m).inner := by
  have ha : innerAddress? d.references (d.raw (m, d.recordOffset position)).offset = m.inner.map d.addressOf :=
    innerAddress?_eq hd hm
  unfold innerShape
  rw [ha]
  cases hi : m.inner
  case none => simp [mapDefinition, hi]
  case some name =>
    obtain ⟨position', m', hm', rfl, he⟩ := exists_map hd (hd.inner m (List.mem_of_getElem? hm) name hi)
    have haddress : d.addressOf m'.name = d.recordOffset position' := by
      rw [addressOf, he, Nat.add_sub_cancel]
    have hf : (d.mapsLaid.map d.raw).find? (·.offset = d.recordOffset position') =
        some (d.raw (m', d.recordOffset position')) := by
      rw [List.find?_map]
      exact congrArg (Option.map d.raw)
        (find?_offset hd (a := (m', d.recordOffset position')) (mem_mapsLaid hm'))
    have hs : (d.raw (m', d.recordOffset position')).shape = .ok m'.shape :=
      shape_raw hd (List.mem_of_getElem? hm')
    have hn := find?_name hd (List.mem_of_getElem? hm')
    rw [Option.map_some, haddress]
    simp only [hf, hs, mapDefinition, hi, Option.bind_some, hn, Option.map_some]
    rfl

theorem define_raw (hd : d.WellFormed) (hm : d.maps[position]? = some m) :
    define (d.mapsLaid.map d.raw) d.references (d.raw (m, d.recordOffset position)) =
      .ok (d.mapRecord (m, d.recordOffset position)) := by
  have hmem := List.mem_of_getElem? hm
  have hs : (d.raw (m, d.recordOffset position)).shape = .ok m.shape := shape_raw hd hmem
  have hp : pinPath? d.references (d.raw (m, d.recordOffset position)).offset = m.pin.map Path.mk :=
    pinPath?_eq hd hm
  -- A map of maps refers to a map that is there.
  have hn : ¬(m.shape.kind.isMapOfMaps ∧ (d.mapDefinition m).inner = none) := by
    rintro ⟨hk, hi⟩
    obtain ⟨kind, hkind, hinner⟩ := hd.kind m hmem
    rw [MapSpec.shape, hkind] at hk
    obtain ⟨name, hname⟩ := Option.ne_none_iff_exists'.mp (hinner hk)
    obtain ⟨m', hm', rfl⟩ := List.mem_map.mp (hd.inner m hmem name hname)
    simp [mapDefinition, hname, find?_name hd hm'] at hi
  refine bind_eq_ok.mpr ⟨_, innerShape_eq hd hm, bind_eq_ok.mpr ⟨_, hs, ?_⟩⟩
  rw [if_neg hn, hp]
  rfl

theorem readMaps_found (hd : d.WellFormed) (b : image.Bounded) (h : d.draft.Shows place image)
    (hm : d.maps ≠ []) :
    readMaps image (place d.mapsNumber) d.mapsSection.read = .ok (d.mapsLaid.map d.mapRecord) := by
  obtain ⟨m, rest, hmaps⟩ := List.exists_cons_of_ne_nil hm
  have hlt := h.contents_lt b (mapsSection_mem (m := m) (hmaps ▸ List.mem_cons_self))
  have hranges : ranges image.symbols (place d.mapsNumber) d.mapsSection.contents.length none =
      .ok (d.mapsLaid.map (pieceRange (MapSpec.record d.recordSize) MapSpec.name)) :=
    ranges_laid (by decide) (fun m _ => record_ne_nil hd m) hlt (marks_maps hd h hm)
  have hraws : (d.mapsLaid.map (pieceRange (MapSpec.record d.recordSize) MapSpec.name)).mapM
      (RawRecord.read image.order d.mapsSection.contents) = .ok (d.mapsLaid.map d.raw) := by
    rw [h.order]
    exact mapM_map_eq_ok fun a ha => read_record hd ha
  have hdefine : (d.mapsLaid.map d.raw).mapM (define (d.mapsLaid.map d.raw) d.references) =
      .ok (d.mapsLaid.map d.mapRecord) := by
    refine mapM_map_eq_ok fun a ha => ?_
    obtain ⟨⟨m, position⟩, hp, rfl⟩ := List.mem_map.mp ha
    exact define_raw hd (List.mk_mem_zipIdx_iff_getElem?.mp hp)
  refine bind_eq_ok.mpr ⟨d.mapsSection.contents, rfl, bind_eq_ok.mpr ⟨_, hranges, ?_⟩⟩
  refine bind_eq_ok.mpr ⟨_, hraws, ?_⟩
  exact bind_eq_ok.mpr ⟨_, mapM_references hd b h, hdefine⟩

theorem maps_found (hd : d.WellFormed) (b : image.Bounded) (h : d.draft.Shows place image) :
    Object.maps image =
      .ok (if d.maps.isEmpty then none else some (place d.mapsNumber), d.mapsLaid.map d.mapRecord) := by
  have hi : ∀ s ∈ d.infoSections, s.name ≠ "maps" := by
    cases hl : d.license <;> cases hv : d.version <;> simp [infoSections, hl, hv]
  unfold Object.maps
  by_cases hm : d.maps = []
  case pos =>
    rw [not_found h hd hi (fun _ => hm) (by decide) (by decide) (by decide)]
    simp [mapsLaid, hm, laid]
  case neg =>
    have hne : d.maps.isEmpty = false := List.isEmpty_eq_false_iff.mpr hm
    have hs : d.draft.sections = d.infoSections ++
        d.mapsSection :: (d.sectionNames.map d.codeSection ++ [d.textSection]) := by
      simp [sections_eq, leadingSections, hne]
    have hl : d.infoSections.length + 1 = d.mapsNumber := by
      rw [mapsNumber, ← length_leadingSections, leadingSections, if_neg (by simp [hne])]
      simp
    have hn : image.sectionNamed? "maps" = some (d.mapsSection.read, place d.mapsNumber) := by
      rw [← hl]
      exact sectionNamed?_shown h hs hi (show "maps" ≠ "" by decide) (show "maps".toList.head? ≠ some '.' by decide)
    rw [hn, if_neg (by simp [hne])]
    exact bind_eq_ok.mpr ⟨_, readMaps_found hd b h hm, rfl⟩

end Definitions

end Description

end Object

end EbpfManager
