import EbpfManager.Proofs.Building.Pieces
import EbpfManager.Proofs.Texts

namespace EbpfManager.Object

open Elf
open Text (Proper)

-- What can be said with an object file. Records that are cut short have no room for references, and at a
-- load the place for the address is empty.
structure Description.WellFormed (d : Description) : Prop where
  license     : ∀ text, d.license = some text → Proper text
  recordSize  : leastRecordSize ≤ d.recordSize ∧ d.recordSize ≤ fullRecordSize
  mapName     : ∀ m ∈ d.maps, Proper m.name
  programName : ∀ p ∈ d.programs, ∃ name, p.name = some name ∧ Proper name
  distinct    : (d.maps.map MapSpec.name ++ d.programs.filterMap ProgramSpec.name).Nodup
  kind        : ∀ m ∈ d.maps, ∃ kind, MapKind.ofNumber? m.kindNumber = some kind ∧
                  (kind.isMapOfMaps → m.inner ≠ none)
  inner       : ∀ m ∈ d.maps, ∀ name, m.inner = some name → name ∈ d.maps.map MapSpec.name
  pin         : ∀ m ∈ d.maps, ∀ path, m.pin = some path → Proper path
  short       : d.recordSize < fullRecordSize → ∀ m ∈ d.maps, m.inner = none ∧ m.pin = none
  sectionName : ∀ p ∈ d.programs, '\x00' ∉ p.sectionName.toList ∧
                  ProgramKind.ofSectionName? p.sectionName ≠ none
  code        : ∀ p ∈ d.programs, p.code ≠ [] ∧ Instruction.size ∣ p.code.length
  load        : ∀ p ∈ d.programs, ∀ l ∈ p.loads, l.2 ∈ d.maps.map MapSpec.name ∧
                  p.code.slice? (Instruction.size * l.1 + 4) 4 = some [0, 0, 0, 0]

instance (text : String) : Decidable (Proper text) :=
  inferInstanceAs (Decidable (_ ∧ _))

instance (d : Description) : Decidable d.WellFormed :=
  decidable_of_iff
    ((∀ text ∈ d.license, Proper text) ∧
      (leastRecordSize ≤ d.recordSize ∧ d.recordSize ≤ fullRecordSize) ∧
      (∀ m ∈ d.maps, Proper m.name) ∧ (∀ p ∈ d.programs, ∃ name ∈ p.name, Proper name) ∧
      (d.maps.map MapSpec.name ++ d.programs.filterMap ProgramSpec.name).Nodup ∧
      (∀ m ∈ d.maps, ∃ kind ∈ MapKind.ofNumber? m.kindNumber, kind.isMapOfMaps → m.inner ≠ none) ∧
      (∀ m ∈ d.maps, ∀ name ∈ m.inner, name ∈ d.maps.map MapSpec.name) ∧
      (∀ m ∈ d.maps, ∀ path ∈ m.pin, Proper path) ∧
      (d.recordSize < fullRecordSize → ∀ m ∈ d.maps, m.inner = none ∧ m.pin = none) ∧
      (∀ p ∈ d.programs, '\x00' ∉ p.sectionName.toList ∧ ProgramKind.ofSectionName? p.sectionName ≠ none) ∧
      (∀ p ∈ d.programs, p.code ≠ [] ∧ Instruction.size ∣ p.code.length) ∧
      (∀ p ∈ d.programs, ∀ l ∈ p.loads, l.2 ∈ d.maps.map MapSpec.name ∧
        p.code.slice? (Instruction.size * l.1 + 4) 4 = some [0, 0, 0, 0]))
    ⟨fun ⟨license, recordSize, mapName, programName, distinct, kind, inner, pin, short, sectionName, code,
        load⟩ =>
      ⟨license, recordSize, mapName, programName, distinct, kind, inner, pin, short, sectionName, code, load⟩,
    fun h => ⟨h.license, h.recordSize, h.mapName, h.programName, h.distinct, h.kind, h.inner, h.pin, h.short,
      h.sectionName, h.code, h.load⟩⟩

-- What a description says, as a reader should find it.
def MapSpec.shape (m : MapSpec) : MapShape where
  kind       := (MapKind.ofNumber? m.kindNumber).getD .unspecified
  keySize    := m.keySize
  valueSize  := m.valueSize
  maxEntries := m.maxEntries
  flags      := m.flags

namespace Description

def mapDefinition (d : Description) (m : MapSpec) : MapDefinition where
  name    := m.name
  shape   := m.shape
  inner   := (m.inner.bind fun name => d.maps.find? (·.name = name)).map MapSpec.shape
  pinPath := m.pin.map Path.mk

def programDefinition (d : Description) (p : ProgramSpec) : ProgramDefinition where
  name        := p.name.getD ""
  kind        := (ProgramKind.ofSectionName? p.sectionName).getD .unspecified
  sectionName := p.sectionName
  license     := d.license.getD "GPL"
  code        := p.code
  loads       := (p.loads.map fun (index, map) => ⟨index, map⟩).mergeSort (·.index ≤ ·.index)

def programsOf (d : Description) (sectionName : String) : List ProgramSpec :=
  d.programs.filter (·.sectionName = sectionName)

-- Maps in their order, and programs by section.
def contents (d : Description) : ObjectFile where
  license       := d.license.getD "GPL"
  kernelVersion := d.version.filter (· ≠ anyKernel)
  maps          := d.maps.map d.mapDefinition
  programs      := d.sectionNames.flatMap fun sectionName => (d.programsOf sectionName).map d.programDefinition

variable {d : Description}

section Names

theorem definedNames (d : Description) : d.definedSymbols.map DraftSymbol.name =
    d.maps.map MapSpec.name ++ d.programs.filterMap ProgramSpec.name := by
  have hm : d.mapSymbols.map DraftSymbol.name = d.maps.map MapSpec.name := by
    rw [← List.zipIdx_map_fst 0 d.maps, mapSymbols, List.map_map, List.map_map]
    rfl
  have hp : d.programSymbols.map DraftSymbol.name = d.programs.filterMap ProgramSpec.name := by
    rw [← List.zipIdx_map_fst 0 d.programs, programSymbols, List.map_filterMap, List.filterMap_map]
    refine List.filterMap_congr fun p _ => ?_
    cases hn : p.1.name <;> simp [hn]
  rw [definedSymbols, List.map_append, hm, hp]

theorem definedSymbols_map {m : MapSpec} {position : Nat} (h : d.maps[position]? = some m) :
    d.definedSymbols[position]? =
      some ⟨m.name, false, d.mapsNumber, d.recordOffset position, d.recordSize⟩ := by
  have hl : position < d.mapSymbols.length := by simpa [mapSymbols] using (List.getElem?_eq_some_iff.mp h).fst
  rw [definedSymbols, List.getElem?_append_left hl, mapSymbols, List.getElem?_map, List.getElem?_zipIdx, h]
  simp

-- The name of a map refers to the map.
theorem symbolNumber_map (hd : d.WellFormed) {m : MapSpec} {position : Nat} (h : d.maps[position]? = some m) :
    d.symbolNumber m.name = position + 1 := by
  have hs := definedSymbols_map h
  have hn : (d.definedSymbols.map DraftSymbol.name).Nodup := d.definedNames ▸ hd.distinct
  have hf : (d.definedSymbols.zipIdx 1).reverse.find? (·.1.name = m.name) = some
      (⟨m.name, false, d.mapsNumber, d.recordOffset position, d.recordSize⟩, position + 1) := by
    refine find?_of_unique (List.mem_reverse.mpr ?_) (decide_eq_true rfl) fun ⟨s, number⟩ hb hname => ?_
    case refine_1 => exact List.mk_mem_zipIdx_iff_le_and_getElem?_sub.mpr ⟨by omega, hs⟩
    case refine_2 =>
      obtain ⟨hle, hb⟩ := List.mk_mem_zipIdx_iff_le_and_getElem?_sub.mp (List.mem_reverse.mp hb)
      have hl : position < (d.definedSymbols.map DraftSymbol.name).length := by
        rw [List.length_map]
        exact (List.getElem?_eq_some_iff.mp hs).fst
      have hname : s.name = m.name := of_decide_eq_true hname
      have he : position = number - 1 := (List.getElem?_inj hl hn).mp <| by
        rw [List.getElem?_map, List.getElem?_map, hs, hb, Option.map_some, Option.map_some, hname]
      subst he
      rw [Option.some_inj.mp (hb.symm.trans hs), Nat.sub_add_cancel hle]
  rw [symbolNumber, hf]

theorem undefinedNames_eq_nil (hd : d.WellFormed) : d.undefinedNames = [] := by
  have hr : ∀ name ∈ d.referenced, name ∈ d.maps.map MapSpec.name := by
    intro name hn
    cases List.mem_append.mp hn
    case inl hn =>
      split at hn
      case isTrue =>
        obtain ⟨m, hm, hi⟩ := List.mem_filterMap.mp hn
        exact hd.inner m hm name hi
      case isFalse => cases hn
    case inr hn =>
      obtain ⟨p, hp, hn⟩ := List.mem_flatMap.mp hn
      obtain ⟨l, hl, rfl⟩ := List.mem_map.mp hn
      exact (hd.load p hp l hl).left
  have hn : d.referenced.filter (fun name => !d.definedSymbols.any (·.name = name)) = [] := by
    refine List.filter_eq_nil_iff.mpr fun name hname => ?_
    have hm : name ∈ d.definedSymbols.map DraftSymbol.name := by
      rw [definedNames]
      exact List.mem_append_left _ (hr name hname)
    obtain ⟨s, hs, he⟩ := List.mem_map.mp hm
    simpa using ⟨s, hs, he⟩
  rw [undefinedNames, hn]
  rfl

end Names

section Sections

-- The sections before those of the programs, and each of the others.
def mapsSection (d : Description) : DraftSection :=
  ⟨"maps", .data, layOut 4 (d.maps.map (MapSpec.record d.recordSize)), d.mapRelocations⟩

def infoSections (d : Description) : List DraftSection :=
  d.license.toList.map (fun license => ⟨"license", .data, Text.encode license ++ [0], []⟩) ++
    d.version.toList.map fun version => ⟨"version", .data, Bytes.ofNat 4 version.toNat, []⟩

def leadingSections (d : Description) : List DraftSection :=
  d.infoSections ++ if d.maps.isEmpty then [] else [d.mapsSection]

def codeSection (d : Description) (name : String) : DraftSection :=
  ⟨name, .code, layOut 8 (codeIn d.programs name), d.codeRelocations name⟩

def textSection (d : Description) : DraftSection :=
  ⟨".rodata.str1.1", .texts, (d.pinned.filterMap (·.1.pinText?)).flatten, []⟩

theorem sections_eq (d : Description) :
    d.draft.sections = d.leadingSections ++ d.sectionNames.map d.codeSection ++ [d.textSection] :=
  rfl

theorem length_leadingSections (d : Description) : d.leadingSections.length = d.leadingNames.length := by
  cases hl : d.license <;> cases hv : d.version <;> cases hm : d.maps.isEmpty <;>
    simp [leadingSections, infoSections, leadingNames, hl, hv, hm]

theorem length_sections (d : Description) :
    d.draft.sections.length = d.leadingNames.length + d.sectionNames.length + 1 := by
  simp [sections_eq, length_leadingSections, Nat.add_assoc]

theorem mapsSection_mem {m : MapSpec} (h : m ∈ d.maps) : d.mapsSection ∈ d.draft.sections := by
  have hm : d.maps.isEmpty = false := List.isEmpty_eq_false_iff.mpr (List.ne_nil_of_mem h)
  simp [sections_eq, leadingSections, hm]

theorem codeSection_mem {p : ProgramSpec} (h : p ∈ d.programs) :
    d.codeSection p.sectionName ∈ d.draft.sections := by
  have hn : p.sectionName ∈ d.sectionNames := List.mem_eraseDups.mpr (List.mem_map_of_mem h)
  simp only [sections_eq, List.mem_append, List.mem_map]
  exact .inl <| .inr ⟨_, hn, rfl⟩

theorem textSection_mem (d : Description) : d.textSection ∈ d.draft.sections := by
  simp [sections_eq]

theorem cases_of_mem_sections {s : DraftSection} (h : s ∈ d.draft.sections) :
    s ∈ d.infoSections ∨ (s = d.mapsSection ∧ d.maps ≠ []) ∨
      (∃ p ∈ d.programs, s = d.codeSection p.sectionName) ∨ s = d.textSection := by
  simp only [sections_eq, leadingSections, List.mem_append, List.mem_map, List.mem_singleton] at h
  rcases h with ((h | h) | ⟨name, hn, rfl⟩) | h
  case inl.inl.inl => exact .inl h
  case inl.inl.inr =>
    split at h
    case isTrue => cases h
    case isFalse hm => exact .inr <| .inl ⟨List.mem_singleton.mp h, fun hn => hm (List.isEmpty_iff.mpr hn)⟩
  case inl.inr =>
    obtain ⟨p, hp, rfl⟩ := List.mem_map.mp (List.mem_eraseDups.mp hn)
    exact .inr <| .inr <| .inl ⟨p, hp, rfl⟩
  case inr => exact .inr <| .inr <| .inr h

end Sections

section Places

-- The maps and the programs of a section, each with the place where its part of the section begins.
def mapsLaid (d : Description) : List (MapSpec × Nat) :=
  laid 4 (MapSpec.record d.recordSize) d.maps

def programsLaid (d : Description) (sectionName : String) : List (ProgramSpec × Nat) :=
  laid 8 ProgramSpec.code (d.programsOf sectionName)

theorem mem_mapsLaid {m : MapSpec} {position : Nat} (h : d.maps[position]? = some m) :
    (m, d.recordOffset position) ∈ d.mapsLaid :=
  List.mem_map.mpr ⟨(m, position), List.mk_mem_zipIdx_iff_getElem?.mpr h, rfl⟩

theorem programsLaid_eq (d : Description) (sectionName : String) :
    (d.programs.zipIdx.filter (·.1.sectionName = sectionName)).map (fun (p, position) =>
      (p, d.codeOffset position sectionName)) = d.programsLaid sectionName :=
  map_filter_eq_laid 8 ProgramSpec.code (fun p => decide (p.sectionName = sectionName)) d.programs

theorem mem_programsLaid {p : ProgramSpec} {position : Nat} (h : d.programs[position]? = some p) :
    (p, d.codeOffset position p.sectionName) ∈ d.programsLaid p.sectionName := by
  rw [← programsLaid_eq]
  refine List.mem_map.mpr ⟨(p, position), List.mem_filter.mpr ⟨?_, decide_eq_true rfl⟩, rfl⟩
  exact List.mk_mem_zipIdx_iff_getElem?.mpr h

theorem codeRelocations_eq (d : Description) (sectionName : String) : d.codeRelocations sectionName =
    (d.programsLaid sectionName).flatMap fun (p, start) => p.loads.map fun (index, name) =>
      (start + Instruction.size * index, d.symbolNumber name) := by
  rw [← programsLaid_eq, List.flatMap_map]
  rfl

theorem length_record (hd : d.WellFormed) (m : MapSpec) : (m.record d.recordSize).length = d.recordSize := by
  have hl : d.recordSize ≤ 40 := hd.recordSize.right
  simp [MapSpec.record, length_fields, hl]

theorem record_ne_nil (hd : d.WellFormed) (m : MapSpec) : m.record d.recordSize ≠ [] := by
  have hl : 20 ≤ d.recordSize := hd.recordSize.left
  have hr := length_record hd m
  intro hn
  rw [hn, List.length_nil] at hr
  omega

end Places

section References

theorem exists_map (hd : d.WellFormed) {name : String} (h : name ∈ d.maps.map MapSpec.name) : ∃ position m,
    d.maps[position]? = some m ∧ m.name = name ∧ d.symbolNumber name = position + 1 := by
  obtain ⟨m, hm, rfl⟩ := List.mem_map.mp h
  obtain ⟨position, hp⟩ := List.mem_iff_getElem?.mp hm
  exact ⟨position, m, hp, rfl, symbolNumber_map hd hp⟩

theorem symbols_defined {s : DraftSymbol} {position : Nat} (h : d.definedSymbols[position]? = some s) :
    d.symbols[position]? = some s := by
  have hl := (List.getElem?_eq_some_iff.mp h).fst
  rw [symbols, List.append_assoc, List.getElem?_append_left hl, h]

theorem length_symbols (d : Description) : d.definedSymbols.length + d.pinned.length ≤ d.symbols.length := by
  simp [symbols, textSymbols]

theorem of_mem_pinned {a : MapSpec × Nat} (h : a ∈ d.pinned) :
    d.hasReferences ∧ d.maps[a.2]? = some a.1 ∧ a.1.pin.isSome := by
  unfold pinned at h
  split at h
  case isFalse => cases h
  case isTrue hr =>
    obtain ⟨hm, hp⟩ := List.mem_filter.mp h
    exact ⟨hr, List.mem_zipIdx_iff_getElem?.mp hm, hp⟩

theorem pinned_findIdx {m : MapSpec} {position : Nat} (hr : d.hasReferences) (h : d.maps[position]? = some m)
    (hp : m.pin.isSome) : d.pinned[d.pinned.findIdx (·.2 = position)]? = some (m, position) := by
  have hm : (m, position) ∈ d.pinned := by
    rw [pinned, if_pos hr]
    exact List.mem_filter.mpr ⟨List.mk_mem_zipIdx_iff_getElem?.mpr h, hp⟩
  have hl : d.pinned.findIdx (·.2 = position) < d.pinned.length :=
    List.findIdx_lt_length_of_exists ⟨_, hm, decide_eq_true rfl⟩
  have hs : (d.pinned[d.pinned.findIdx (·.2 = position)]).2 = position := of_decide_eq_true <|
    List.findIdx_getElem (p := fun a : MapSpec × Nat => decide (a.2 = position))
  obtain ⟨_, hg, _⟩ := of_mem_pinned (List.getElem_mem hl)
  rw [hs, h] at hg
  rw [List.getElem?_eq_getElem hl]
  exact congrArg some (Prod.ext (Option.some_inj.mp hg).symm hs)

theorem symbols_text {m : MapSpec} {position k : Nat} (h : d.pinned[k]? = some (m, position)) :
    d.symbols[d.definedSymbols.length + k]? =
      some ⟨".L" ++ m.name ++ ".path", false, d.textsNumber, d.textOffset k, (m.pinText?.getD []).length⟩ := by
  have hl : k < d.textSymbols.length := by simpa [textSymbols] using (List.getElem?_eq_some_iff.mp h).fst
  rw [symbols, List.append_assoc, List.getElem?_append_right (by omega), Nat.add_sub_cancel_left,
    List.getElem?_append_left hl, textSymbols, List.getElem?_map, List.getElem?_zipIdx, h]
  simp

theorem textSection_eq {m : MapSpec} {position k : Nat} {path : String}
    (h : d.pinned[k]? = some (m, position)) (hp : m.pin = some path) : ∃ front rest,
    d.textSection.contents = front ++ (Text.encode path ++ 0 :: rest) ∧
      front.length = d.textOffset k := by
  refine ⟨_, ((d.pinned.drop (k + 1)).filterMap (·.1.pinText?)).flatten, ?_, rfl⟩
  have hc := congrArg (fun ps : List (MapSpec × Nat) => (ps.filterMap (·.1.pinText?)).flatten)
    (eq_take_append_cons h)
  simpa [textSection, MapSpec.pinText?, hp] using hc

theorem cases_of_mem_mapRelocations {r : Nat × Nat} (h : r ∈ d.mapRelocations) : d.hasReferences ∧
    ∃ position m, d.maps[position]? = some m ∧
      ((∃ name, m.inner = some name ∧ r = (d.recordOffset position + innerField, d.symbolNumber name)) ∨
        (m.pin.isSome ∧ r = (d.recordOffset position + pinField,
          d.definedSymbols.length + d.pinned.findIdx (·.2 = position) + 1))) := by
  unfold mapRelocations at h
  split at h
  case isFalse => cases h
  case isTrue hr =>
    obtain ⟨⟨m, position⟩, hm, h⟩ := List.mem_flatMap.mp h
    refine ⟨hr, position, m, List.mk_mem_zipIdx_iff_getElem?.mp hm, ?_⟩
    cases List.mem_append.mp h
    case inl h =>
      obtain ⟨name, hn, rfl⟩ := List.mem_map.mp h
      exact .inl ⟨name, Option.mem_toList.mp hn, rfl⟩
    case inr h =>
      split at h
      case isTrue hp  => exact .inr ⟨hp, List.mem_singleton.mp h⟩
      case isFalse hp => cases h

theorem exists_of_mem_codeRelocations {r : Nat × Nat} {sectionName : String}
    (h : r ∈ d.codeRelocations sectionName) : ∃ p start,
    (p, start) ∈ d.programsLaid sectionName ∧ ∃ l ∈ p.loads,
      r = (start + Instruction.size * l.1, d.symbolNumber l.2) := by
  rw [codeRelocations_eq] at h
  obtain ⟨⟨p, start⟩, hp, h⟩ := List.mem_flatMap.mp h
  obtain ⟨l, hl, rfl⟩ := List.mem_map.mp h
  exact ⟨p, start, hp, l, hl, rfl⟩

theorem mem_of_mem_programsLaid {p : ProgramSpec} {start : Nat} {sectionName : String}
    (h : (p, start) ∈ d.programsLaid sectionName) : p ∈ d.programs ∧ p.sectionName = sectionName := by
  obtain ⟨hp, hs⟩ := List.mem_filter.mp (fst_mem_of_mem_laid h)
  exact ⟨hp, of_decide_eq_true hs⟩

end References

section Extents

theorem code_le {p : ProgramSpec} {start : Nat} {sectionName : String}
    (h : (p, start) ∈ d.programsLaid sectionName) :
    start + p.code.length ≤ (d.codeSection sectionName).contents.length :=
  add_length_le (by decide) h

theorem record_le (hd : d.WellFormed) {m : MapSpec} {position : Nat} (h : d.maps[position]? = some m) :
    d.recordOffset position + d.recordSize ≤ d.mapsSection.contents.length := by
  have hl := add_length_le (by decide) (mem_mapsLaid h)
  rwa [length_record hd] at hl

theorem text_le {m : MapSpec} {position k : Nat} (h : d.pinned[k]? = some (m, position)) :
    d.textOffset k + (m.pinText?.getD []).length ≤ d.textSection.contents.length := by
  obtain ⟨_, _, hp⟩ := of_mem_pinned (List.mem_of_getElem? h)
  obtain ⟨path, hp⟩ := Option.isSome_iff_exists.mp hp
  obtain ⟨front, rest, hc, hl⟩ := textSection_eq h hp
  have ht : m.pinText? = some (Text.encode path ++ [0]) := congrArg (Option.map _) hp
  simp [hc, ← hl, ht]

end Extents

end Description

end EbpfManager.Object
