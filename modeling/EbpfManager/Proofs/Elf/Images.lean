import EbpfManager.Proofs.Elf.Sections

namespace EbpfManager

-- Positions lead back to what has them.
theorem filterMap_positions {α : Type} (p : α → Bool) (as : List α) :
    ((as.zipIdx.filter (p ·.1)).map Prod.snd).filterMap (as[·]?) = as.filter p := by
  have hg : ∀ a ∈ as.zipIdx.filter (p ·.1), ((as[·]?) ∘ Prod.snd) a = (some ∘ Prod.fst) a :=
    fun a ha => List.mem_zipIdx_iff_getElem?.mp (List.mem_filter.mp ha).left
  have hf : (as.zipIdx.map Prod.fst).filter p = (as.zipIdx.filter (p ·.1)).map Prod.fst := List.filter_map
  rw [List.filterMap_map, List.filterMap_congr hg, List.filterMap_eq_map, ← hf, List.zipIdx_map_fst]

namespace Elf.Draft

variable {d : Draft}

section Symbols

def symbolRecords (d : Draft) : List Bytes :=
  List.replicate 24 0 :: d.symbols.zipIdx.map (d.symbolRecord (d.symbols.map DraftSymbol.name))

def indexRecords (d : Draft) : List Bytes :=
  Bytes.ofNat 4 0 :: d.symbols.map fun s => Bytes.ofNat 4 (extendedOf (d.place s.number))

def symbolHeader (d : Draft) : SectionHeader :=
  headerAt d.placed d.symbolSection d.front.length

def indexHeader (d : Draft) : SectionHeader :=
  headerAt d.placed d.indexSection (d.front.length + 1)

def stringHeader (d : Draft) : SectionHeader :=
  headerAt d.placed d.stringSection (d.front.length + (d.indices.length + 1))

def nameHeader (d : Draft) : SectionHeader :=
  headerAt d.placed d.nameSection (d.front.length + (d.indices.length + 2))

def indexHeaders (d : Draft) : List SectionHeader :=
  if d.needsIndices then [d.indexHeader] else []

theorem headersOf_tables (d : Draft) : d.headersOf d.tables d.front.length =
    d.symbolHeader :: (d.indexHeaders ++ [d.stringHeader, d.nameHeader]) := by
  have hl : d.front.length + 1 + d.indices.length = d.front.length + (d.indices.length + 1) := by omega
  have hi : d.headersOf d.indices (d.front.length + 1) = d.indexHeaders := by
    unfold indices indexHeaders
    split <;> rfl
  have hs : d.headersOf [d.stringSection, d.nameSection] (d.front.length + (d.indices.length + 1)) =
      [d.stringHeader, d.nameHeader] := rfl
  rw [← hi, ← hs, headersOf, tables, List.zipIdx_cons, List.zipIdx_append, List.map_cons, List.map_append, hl]
  rfl

theorem placed_strings (d : Draft) :
    d.placed[d.front.length + (d.indices.length + 1)]? = some d.stringSection := by
  rw [placed_table, tables, List.getElem?_cons_succ, List.getElem?_append_right (Nat.le_refl _), Nat.sub_self]
  rfl

theorem placed_names (d : Draft) : d.placed[d.front.length + (d.indices.length + 2)]? = some d.nameSection := by
  rw [placed_table, tables, List.getElem?_cons_succ, List.getElem?_append_right (Nat.le_add_right _ 1),
    Nat.add_sub_cancel_left]
  rfl

theorem records?_symbolHeader (d : Draft) : d.symbolHeader.records? d.write 24 8 = some d.symbolRecords := by
  refine records?_headerAt (d.placed_table 0) (by simp only [symbolSection]; decide) rfl ?_
    (by decide) (by decide)
  refine List.forall_mem_cons.mpr ⟨rfl, List.forall_mem_map.mpr fun s _ => ?_⟩
  simp [symbolRecord, length_fields]

theorem records?_indexHeader (hn : d.needsIndices) :
    d.indexHeader.records? d.write 4 4 = some d.indexRecords := by
  have hp : d.placed[d.front.length + 1]? = some d.indexSection := by
    rw [placed_table, tables, indices, if_pos hn]
    rfl
  refine records?_headerAt hp (by simp only [indexSection]; decide) rfl ?_ (by decide) (by decide)
  simp [indexRecords]

theorem ofSection?_stringTable (hr : d.HasRoom) {s : PlacedSection} {position : Nat}
    (h : d.placed[position]? = some s) :
    NameTable.ofSection? (headerAt d.placed s position) d.write = some (some s.contents) := by
  have hl : offsetOf d.placed position + s.contents.length < Bytes.limit 8 :=
    ((offsetOf_add_le h).trans_lt hr.file).trans (by decide)
  exact (if_pos hl).trans (congrArg some (slice?_fileOf h))

-- What is read of the table of large numbers, where there is one.
def extended (d : Draft) : List Nat :=
  if d.needsIndices then 0 :: d.symbols.map fun s => extendedOf (d.place s.number) else []

theorem toNat_indexRecords (hd : d.Sound) (hr : d.HasRoom) :
    d.indexRecords.map ByteOrder.little.toNat = 0 :: d.symbols.map fun s => extendedOf (d.place s.number) := by
  have hl : ∀ s ∈ d.symbols, Bytes.toNat (Bytes.ofNat 4 (extendedOf (d.place s.number))) =
      extendedOf (d.place s.number) := by
    intro s hs
    have hlt : extendedOf (d.place s.number) < Bytes.limit 4 := by
      unfold extendedOf
      split
      case isTrue  => decide
      case isFalse => exact hr.place_lt (hd.number s hs)
    rw [Bytes.toNat_ofNat, Nat.mod_eq_of_lt hlt]
  rw [indexRecords, List.map_cons, List.map_map]
  exact congrArg (0 :: ·) (List.map_congr_left hl)

theorem extended_of_le {s : DraftSymbol} {i : Nat} (hs : d.symbols[i]? = some s)
    (h : firstReservedIndex ≤ d.place s.number) : d.extended[i + 1]? = some (d.place s.number) := by
  have hn : d.needsIndices := List.any_eq_true.mpr ⟨s, List.mem_of_getElem? hs, decide_eq_true h⟩
  rw [extended, if_pos hn, List.getElem?_cons_succ, List.getElem?_map, hs, Option.map_some, extendedOf,
    if_neg (Nat.not_lt.mpr h)]

-- The record of each symbol is read along with its index.
theorem mapM_symbolRecords (hd : d.Sound) (hr : d.HasRoom) :
    (d.symbolRecords.zipIdx.mapM fun (record, i) => Symbol.read? written
      (some (nameTable (d.symbols.map DraftSymbol.name))) record d.extended[i]?) =
      some (reservedSymbol :: d.symbols.map (DraftSymbol.read d.place)) := by
  rw [symbolRecords, List.zipIdx_cons]
  refine mapM_eq_some.mpr <| .cons (read?_reserved _ _) ?_
  refine List.forall₂_iff_get.mpr ⟨by simp, fun i h h' => ?_⟩
  have hi : i < d.symbols.length := by simpa using h'
  have hm : d.symbols[i] ∈ d.symbols := List.getElem_mem hi
  have hn : (d.symbols.map DraftSymbol.name)[i]? = some d.symbols[i].name := by simp [hi]
  have hs := read?_symbolRecord (hd.value _ hm) (hd.size _ hm) (hd.symbolName _ hm) hn hr.symbols
    (extended_of_le (List.getElem?_eq_getElem hi))
  simpa [Nat.add_comm 1 i] using hs

theorem table?_symbols (hd : d.Sound) (hr : d.HasRoom) :
    Symbol.table? written d.write (headers d.placed) typeSymbolTable =
      some (d.symbolsAt, reservedSymbol :: d.symbols.map (DraftSymbol.read d.place)) := by
  have hl : (firstHeaderOf d.placed :: d.headersOf d.front 0).length = d.symbolsAt := by
    rw [List.length_cons, headersOf, List.length_map, List.length_zipIdx, length_front]
  have hf : (headers d.placed).zipIdx.find? (·.1.type = typeSymbolTable) =
      some (d.symbolHeader, d.symbolsAt) := by
    have hn : ∀ h ∈ firstHeaderOf d.placed :: d.headersOf d.front 0, decide (h.type = typeSymbolTable) = false := by
      intro h hm
      rcases type_of_mem_front hm with ht | ht | ht <;> rw [ht] <;> rfl
    rw [headers_eq, headersOf_tables, ← hl]
    exact find?_zipIdx_append hn rfl
  have hi : (headers d.placed).filter (fun s => s.type = typeSectionIndices && s.link = d.symbolsAt) =
      d.indexHeaders := by
    have hn : (firstHeaderOf d.placed :: d.headersOf d.front 0).filter
        (fun s => s.type = typeSectionIndices && s.link = d.symbolsAt) = [] := by
      refine List.filter_eq_nil_iff.mpr fun h hm => ?_
      rcases type_of_mem_front hm with ht | ht | ht <;> rw [ht] <;> exact Bool.false_ne_true
    rw [headers_eq, headersOf_tables, List.filter_append, hn, List.nil_append, indexHeaders]
    split <;> simp [symbolHeader, indexHeader, stringHeader, nameHeader, headerAt, symbolSection, indexSection,
      stringSection, nameSection, typeSymbolTable, typeSectionIndices, typeStringTable]
  have hs : (headers d.placed)[d.symbolHeader.link]? = some d.stringHeader := by
    have hk : d.symbolHeader.link = d.front.length + (d.indices.length + 1) + 1 := by
      have hf := length_front d
      simp only [symbolHeader, headerAt, symbolSection]
      omega
    rw [hk, headers_succ, placed_strings, Option.map_some, stringHeader]
  have hk : d.symbolHeader.link ≠ 0 := Nat.succ_ne_zero _
  have hn : NameTable.ofSection? d.stringHeader d.write =
      some (some (nameTable (d.symbols.map DraftSymbol.name))) :=
    ofSection?_stringTable hr d.placed_strings
  have hx : ∃ tables, d.indexHeaders.mapM (·.records? d.write 4 4) = some tables ∧
      (tables.getLast?.getD []).map written.order.toNat = d.extended := by
    unfold indexHeaders extended
    split
    case isTrue hn  =>
      exact ⟨_, mapM_eq_some.mpr (.cons (records?_indexHeader hn) .nil), toNat_indexRecords hd hr⟩
    case isFalse => exact ⟨[], rfl, rfl⟩
  obtain ⟨tables, hm, hx⟩ := hx
  have hr' : d.symbolHeader.records? d.write written.symbolSize written.wordSize = some d.symbolRecords :=
    d.records?_symbolHeader
  have ht : d.stringHeader.type = typeStringTable := rfl
  unfold Symbol.table?
  simp only [hf, Option.bind_eq_bind, hr', Option.bind_some, if_neg hk, hs, ht, if_true, hn,
    hi, hm, hx, mapM_symbolRecords hd hr]

end Symbols

section Relocations

variable {s : DraftSection} {position : Nat}

theorem target?_relocating (s : DraftSection) (n i : Nat) :
    Relocation.target? d.symbolsAt (headerAt d.placed (d.relocating s (n + 1)) i) = some (d.place (n + 1)) :=
  if_pos ⟨rfl, rfl, mt place_eq_zero.mp (Nat.succ_ne_zero n)⟩

-- The headers of relocations, or another one, that changes nothing.
theorem target?_headerAt {t : PlacedSection} {i : Nat} (h : d.placed[i]? = some t) :
    (∃ position s, d.sections[position]? = some s ∧ s.relocations ≠ [] ∧ i = start d.sections position + 1 ∧
      Relocation.target? d.symbolsAt (headerAt d.placed t i) = some (d.place (position + 1))) ∨
    Relocation.target? d.symbolsAt (headerAt d.placed t i) = none := by
  rcases cases_placed h with ⟨_, s, _, _, rfl⟩ | ⟨position, s, hs, hr, hi, rfl⟩ | h
  case inl     => exact .inr rfl
  case inr.inl => exact .inl ⟨position, s, hs, hr, hi, target?_relocating s position i⟩
  case inr.inr => rcases mem_tables h with rfl | rfl | rfl | rfl <;> exact .inr rfl

theorem cases_of_mem_headers {h : SectionHeader} (hm : h ∈ headers d.placed) :
    h = firstHeaderOf d.placed ∨ ∃ t i, d.placed[i]? = some t ∧ h = headerAt d.placed t i := by
  rcases List.mem_cons.mp hm with rfl | hm
  case inl => exact .inl rfl
  case inr =>
    obtain ⟨⟨t, i⟩, ht, rfl⟩ := List.mem_map.mp hm
    exact .inr ⟨t, i, List.mk_mem_zipIdx_iff_getElem?.mp ht, rfl⟩

theorem headers_own (h : d.sections[position]? = some s) : (headers d.placed)[d.place (position + 1)]? =
    some (headerAt d.placed (own s) (start d.sections position)) := by
  rw [place_succ, headers_succ, placed_own h, Option.map_some]

theorem targetsSound_headers (d : Draft) : Relocation.targetsSound d.symbolsAt (headers d.placed) = true := by
  refine List.all_eq_true.mpr fun h hm => ?_
  rcases cases_of_mem_headers hm with rfl | ⟨t, i, ht, rfl⟩
  case inl => rfl
  case inr =>
    rcases target?_headerAt ht with ⟨position, s, hs, _, _, hn⟩ | hn
    case inl =>
      simp only [hn, headers_own hs]
      rfl
    case inr => simp only [hn]

theorem table?_dynamic (d : Draft) (file : Bytes) :
    Symbol.table? written file (headers d.placed) typeDynamicSymbols = some (0, []) := by
  have hn : (headers d.placed).zipIdx.find? (·.1.type = typeDynamicSymbols) = none := by
    refine List.find?_eq_none.mpr fun h hm => ?_
    rcases cases_of_mem_headers (List.fst_mem_of_mem_zipIdx hm) with he | ⟨t, i, ht, he⟩ <;> rw [he]
    case inl => exact Bool.false_ne_true
    case inr =>
      rcases cases_placed ht with ⟨_, _, _, _, rfl⟩ | ⟨_, _, _, _, _, rfl⟩ | h
      case inr.inr => rcases mem_tables h with rfl | rfl | rfl | rfl <;> exact Bool.false_ne_true
      all_goals exact Bool.false_ne_true
  unfold Symbol.table?
  rw [hn]

theorem ofSection_eq {f : Format} {file : Bytes} {symbolTable number : Nat} {headers : List SectionHeader}
    (hn : headers[number]?.bind (Relocation.target? symbolTable) = none)
    (h0 : 0 ∉ Relocation.chain symbolTable headers number) :
    Relocation.ofSection f file symbolTable headers number =
      (headers.filter (Relocation.target? symbolTable · = some number)).flatMap
        (Relocation.entries f file) := by
  rw [Relocation.ofSection, Relocation.sectionsOf, hn]
  simp only [if_neg h0]
  rw [Relocation.chain, filterMap_positions (fun h => decide (Relocation.target? symbolTable h = some number))]

theorem entries_relocating (hd : d.Sound) (hr : d.HasRoom) (h : d.sections[position]? = some s)
    (hs : s.relocations ≠ []) :
    Relocation.entries written d.write
      (headerAt d.placed (d.relocating s (position + 1)) (start d.sections position + 1)) =
        s.relocations.map readRelocation := by
  have hm := List.mem_of_getElem? h
  have hl : d.symbols.length < Bytes.limit 4 := by
    have hl := length_lt_nameTable (d.symbols.map DraftSymbol.name)
    rw [List.length_map] at hl
    exact hl.trans_le hr.symbols
  have hrecords := records?_headerAt (placed_relocating h hs) (by simp only [relocating]; decide)
    (rfl : _ = (s.relocations.map relocationRecord).flatten)
    (List.forall_mem_map.mpr fun r _ => by simp [relocationRecord, length_fields])
    (show 16 ≠ 0 by decide) (show 8 ∣ 8 by decide)
  have hread : (s.relocations.map relocationRecord).mapM (Relocation.read? written false) =
      some (s.relocations.map readRelocation) := by
    refine mapM_map_eq_some fun r hr' => ?_
    obtain ⟨hpos, hle⟩ := hd.symbol s hm r hr'
    exact read?_relocationRecord (hd.offset s hm r hr') (Nat.ne_of_gt hpos) (hle.trans_lt hl)
  have hb := congrArg (Option.bind · fun records => records.mapM (Relocation.read? written false)) hrecords
  exact congrArg (Option.getD · []) (hb.trans hread)

-- The headers of the relocations of a section, if it has any.
theorem filter_headers (h : d.sections[position]? = some s) :
    (headers d.placed).filter (Relocation.target? d.symbolsAt · = some (d.place (position + 1))) =
      if s.relocations = [] then []
      else [headerAt d.placed (d.relocating s (position + 1)) (start d.sections position + 1)] := by
  have hfirst : Relocation.target? d.symbolsAt (firstHeaderOf d.placed) = none := rfl
  -- Only sections with relocations have headers like that.
  have hi : ∀ t ∈ d.placed.zipIdx, decide (Relocation.target? d.symbolsAt (headerAt d.placed t.1 t.2) =
      some (d.place (position + 1))) = decide (t.2 = start d.sections position + 1 ∧ s.relocations ≠ []) := by
    rintro ⟨t, i⟩ ht
    have ht := List.mk_mem_zipIdx_iff_getElem?.mp ht
    rw [decide_eq_decide]
    constructor
    case mp =>
      intro he
      rcases target?_headerAt ht with ⟨position', s', hs', hr, hi, hn⟩ | hn
      case inl =>
        have hp := d.place_strictMono.injective (Option.some_inj.mp (hn.symm.trans he))
        cases Nat.succ_injective hp
        cases hs'.symm.trans h
        exact ⟨hi, hr⟩
      case inr => cases hn.symm.trans he
    case mpr =>
      rintro ⟨rfl, hr⟩
      cases ht.symm.trans (placed_relocating h hr)
      exact target?_relocating s position _
  rw [headers, List.filter_cons_of_neg (by simp [hfirst]), List.filter_map]
  refine (congrArg (List.map _) (List.filter_congr hi)).trans ?_
  split
  case isTrue hr  => simp [hr]
  case isFalse hr =>
    have hm : (d.relocating s (position + 1), start d.sections position + 1) ∈ d.placed.zipIdx :=
      List.mk_mem_zipIdx_iff_getElem?.mpr (placed_relocating h hr)
    have hf := filter_eq_singleton (pairwise_zipIdx d.placed 0) hm
    simp [hr, hf]

theorem ofSection_own (hd : d.Sound) (hr : d.HasRoom) (h : d.sections[position]? = some s) :
    Relocation.ofSection written d.write d.symbolsAt (headers d.placed) (d.place (position + 1)) =
      s.relocations.map readRelocation := by
  have hn : (headers d.placed)[d.place (position + 1)]?.bind (Relocation.target? d.symbolsAt) = none := by
    rw [headers_own h]
    rfl
  -- The first header changes nothing.
  have h0 : 0 ∉ Relocation.chain d.symbolsAt (headers d.placed) (d.place (position + 1)) := by
    intro hm
    obtain ⟨⟨header, _⟩, hm, rfl⟩ := List.mem_map.mp hm
    obtain ⟨hm, ht⟩ := List.mem_filter.mp hm
    cases List.mk_mem_zipIdx_iff_getElem?.mp hm
    have hfirst : Relocation.target? d.symbolsAt (firstHeaderOf d.placed) = none := rfl
    cases hfirst.symm.trans (of_decide_eq_true ht)
  rw [ofSection_eq hn h0, filter_headers h]
  split
  case isTrue hs  => rw [hs]; rfl
  case isFalse hs => rw [List.flatMap_singleton, entries_relocating hd hr h hs]

end Relocations

-- What is read of the section with a header.
def sectionRead (d : Draft) (header : SectionHeader) (number : Nat) : Section where
  name        := NameTable.name? (some (nameTable (d.placed.map PlacedSection.name))) header.nameOffset
  isCode      := header.type = typeProgramBits && header.flags / flagAllocated % 2 = 1 &&
                   header.flags / flagExecutable % 2 = 1
  contents    := header.contents? d.write
  relocations := Relocation.ofSection written d.write d.symbolsAt (headers d.placed) number

def image (d : Draft) : Image where
  order       := .little
  symbolTable := reservedSymbol :: d.symbols.map (DraftSymbol.read d.place)
  sections    := (headers d.placed).zipIdx.map fun (header, number) => d.sectionRead header number

theorem read?_write (hd : d.Sound) (hr : d.HasRoom) : Image.read? d.write = some d.image := by
  have hf := fits_placed hr
  have hh : Header.read? d.write = some (headerOf d.placed) := hf.read?_header
  have hs : (headerOf d.placed).sections? d.write = some (headers d.placed) := hf.sections?_headerOf
  have hl : d.placed.length = d.front.length + (d.indices.length + 2) + 1 := by
    rw [length_placed, ← length_front]
    omega
  have hn : (headerOf d.placed).nameSection? d.write = some (d.front.length + (d.indices.length + 2) + 1) := by
    rw [← hl]
    exact hf.nameSection?_headerOf fun h => by simp [h] at hl
  have ht : NameTable.ofSection? d.nameHeader d.write =
      some (some (nameTable (d.placed.map PlacedSection.name))) :=
    ofSection?_stringTable hr d.placed_names
  have hp : (headers d.placed).isEmpty = false := rfl
  have h3 : (headers d.placed)[d.front.length + (d.indices.length + 2) + 1]? = some d.nameHeader := by
    rw [headers_succ, placed_names, Option.map_some, nameHeader]
  have htype : ¬d.nameHeader.type = typeNoBits := Nat.ne_of_beq_eq_false rfl
  have hw : (headerOf d.placed).format = written := rfl
  unfold Image.read?
  simp only [hh, Option.bind_eq_bind, Option.bind_some, segmentsSound_headerOf, Bool.not_true,
    Bool.false_eq_true, if_false, hs, hp, hn, h3, if_neg htype, ht, hw, table?_symbols hd hr,
    table?_dynamic, targetsSound_headers]
  rfl

theorem name_sectionRead (hd : d.Sound) {t : PlacedSection} {i : Nat} (h : d.placed[i]? = some t) (number : Nat) :
    (d.sectionRead (headerAt d.placed t i) number).name = some (Text.encode t.name) := by
  have hn : (d.placed.map PlacedSection.name)[i]? = some t.name := by rw [List.getElem?_map, h, Option.map_some]
  exact name?_nameTable (hd.placedName (List.mem_of_getElem? h)) hn

theorem sectionRead_own (hd : d.Sound) (hr : d.HasRoom) {s : DraftSection} {position : Nat}
    (h : d.sections[position]? = some s) :
    d.sectionRead (headerAt d.placed (own s) (start d.sections position)) (d.place (position + 1)) = s.read := by
  have hp := placed_own h
  have hname := name_sectionRead hd hp (d.place (position + 1))
  have hc : (headerAt d.placed (own s) (start d.sections position)).contents? d.write = some s.contents :=
    contents?_headerAt hp (by simp only [own]; decide)
  have ho := ofSection_own hd hr h
  have hcode : (typeProgramBits = typeProgramBits && s.use.flags / flagAllocated % 2 = 1 &&
      s.use.flags / flagExecutable % 2 = 1) = decide (s.use = .code) := by
    cases s.use <;> rfl
  exact (Section.mk.injEq ..).mpr ⟨hname, hcode, hc, ho⟩

theorem isTable_sectionRead (hd : d.Sound) {t : PlacedSection} {i number : Nat} (h : d.placed[i]? = some t)
    (ht : t.type ≠ typeProgramBits) (hn : t.name.toList.head? = some '.') :
    IsTable (d.sectionRead (headerAt d.placed t i) number) where
  isCode := by simp [sectionRead, headerAt, ht]
  name ho := by
    have he := Text.encode_injective (Option.some_inj.mp ((name_sectionRead hd h number).symm.trans ho))
    exact .inr (he ▸ hn)

theorem getElem?_image (d : Draft) (number : Nat) :
    d.image.sections[number]? = (headers d.placed)[number]?.map (d.sectionRead · number) := by
  rw [image, List.getElem?_map, List.getElem?_zipIdx, Nat.zero_add, Option.map_map]
  rfl

-- Every section that is not in the draft is one of those that hold tables.
theorem isTable_image (hd : d.Sound) {number : Nat} {s : Section} (hs : d.image.sections[number]? = some s)
    (hn : ∀ position < d.sections.length, d.place (position + 1) ≠ number) : IsTable s := by
  rw [getElem?_image] at hs
  obtain ⟨header, hh, rfl⟩ := Option.map_eq_some_iff.mp hs
  cases number
  case zero =>
    cases hh
    exact ⟨rfl, fun ho => .inl (Text.encode_injective (Option.some_inj.mp ((name?_zero _).symm.trans ho)).symm)⟩
  case succ i =>
    rw [headers_succ] at hh
    obtain ⟨t, ht, rfl⟩ := Option.map_eq_some_iff.mp hh
    rcases cases_placed ht with ⟨position, s, h, rfl, _⟩ | ⟨_, s, _, _, _, rfl⟩ | h
    case inl => exact absurd (d.place_succ position) (hn position (List.getElem?_eq_some_iff.mp h).fst)
    case inr.inl => exact isTable_sectionRead hd ht (Nat.ne_of_beq_eq_false rfl) (by simp [relocating])
    case inr.inr =>
      have hn : t.name.toList.head? = some '.' := by
        rcases mem_tables h with rfl | rfl | rfl | rfl <;>
          simp only [symbolSection, indexSection, stringSection, nameSection] <;> decide
      have htype : t.type ≠ typeProgramBits := by
        rcases mem_tables h with rfl | rfl | rfl | rfl <;> exact Nat.ne_of_beq_eq_false rfl
      exact isTable_sectionRead hd ht htype hn

theorem shows_image (hd : d.Sound) (hr : d.HasRoom) : d.Shows d.place d.image where
  order         := rfl
  symbols       := rfl
  ascending     := d.place_strictMono
  own hs        := by rw [getElem?_image, headers_own hs, Option.map_some, sectionRead_own hd hr hs]
  others hs hn  := isTable_image hd hs hn

theorem stored_write (hd : d.Sound) (hr : d.HasRoom) : d.Stored d.write where
  size  := hr.file
  shown := ⟨d.place, d.image, read?_write hd hr, shows_image hd hr⟩

end Elf.Draft

end EbpfManager
