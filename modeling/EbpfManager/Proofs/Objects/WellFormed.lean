import EbpfManager.Elf.Writer
import EbpfManager.Object.Description
import EbpfManager.Proofs.Objects.Programs
import EbpfManager.Proofs.Objects.Records
import EbpfManager.Proofs.Texts

namespace EbpfManager

open Text (Proper)

structure MapDefinition.WellFormed (d : MapDefinition) : Prop where
  name    : Proper d.name
  inner   : d.shape.kind.isMapOfMaps → d.inner.isSome
  pinPath : ∀ path, d.pinPath = some path → Proper path.text

-- `maps` are the names of the maps that there are.
structure ProgramDefinition.WellFormed (maps : List String) (d : ProgramDefinition) : Prop where
  code    : d.code ≠ []
  whole   : d.code.length % Instruction.size = 0
  sorted  : d.loads.Pairwise (·.index ≤ ·.index)
  inside  : ∀ load ∈ d.loads, load.index * Instruction.size < d.code.length
  defined : ∀ load ∈ d.loads, load.map ∈ maps

-- What every file that can be read keeps to, whatever else is in it.
structure ObjectFile.WellFormed (o : ObjectFile) : Prop where
  license       : Proper o.license
  kernelVersion : o.kernelVersion ≠ some Object.anyKernel
  maps          : ∀ d ∈ o.maps, d.WellFormed
  programs      : ∀ d ∈ o.programs, d.WellFormed (o.maps.map MapDefinition.name)

namespace Elf

-- A name that is text comes from octets before a zero.
def Symbol.Readable (s : Symbol) : Prop :=
  ∀ name, s.name = some name → '\x00' ∉ name.toList

theorem Symbol.readable_of_read? {f : Format} {names : NameTable} {record : Bytes}
    {extended : Option Nat} {s : Symbol} (h : read? f names record extended = some s) :
    s.Readable := by
  obtain ⟨name, hn⟩ : ∃ name, s.name = (names.name? name).bind Text.decode? := by
    simp only [read?, Option.bind_eq_bind, Option.bind_some, Option.bind_none] at h
    split at h
    case h_1 | h_2 =>
      obtain ⟨fields, _, h⟩ := Option.bind_eq_some_iff.mp h
      split at h <;> cases h
      exact ⟨_, rfl⟩
  intro text ht
  obtain ⟨octets, ho, hd⟩ := Option.bind_eq_some_iff.mp <| hn ▸ ht
  obtain ⟨_, _, ho⟩ := Option.bind_eq_some_iff.mp ho
  exact Text.zero_not_mem_of_decode? (Text.zero_not_mem_of_terminated? ho) hd

theorem Symbol.readable_of_table? {f : Format} {file : Bytes} {sections : List SectionHeader}
    {type number : Nat} {symbols : List Symbol}
    (h : table? f file sections type = some (number, symbols)) : ∀ s ∈ symbols, s.Readable := by
  unfold table? at h
  split at h
  case h_1 => cases h; simp
  case h_2 =>
    -- However the names and the numbers of sections are found, each symbol is read from a record.
    obtain ⟨names, records, indices, hm⟩ : ∃ names, ∃ records : List Bytes, ∃ indices : Nat → Option Nat,
        records.zipIdx.mapM (fun r => read? f names r.1 (indices r.2)) = some symbols := by
      simp only [Option.bind_eq_bind, Option.bind_some, Option.bind_none, Option.bind_eq_some_iff] at h
      obtain ⟨records, _, h⟩ := h
      split at h
      case isTrue =>
        obtain ⟨indexTables, _, h⟩ := Option.bind_eq_some_iff.mp h
        obtain ⟨_, hm, he⟩ := Option.bind_eq_some_iff.mp h
        cases he
        exact ⟨_, _, _, hm⟩
      case isFalse =>
        obtain ⟨strings, _, h⟩ := Option.bind_eq_some_iff.mp h
        split at h
        case isFalse => cases h
        case isTrue =>
          obtain ⟨names, _, h⟩ := Option.bind_eq_some_iff.mp h
          obtain ⟨indexTables, _, h⟩ := Option.bind_eq_some_iff.mp h
          obtain ⟨_, hm, he⟩ := Option.bind_eq_some_iff.mp h
          cases he
          exact ⟨_, _, _, hm⟩
    intro s hs
    obtain ⟨_, _, hr⟩ := exists_of_mem_right (mapM_eq_some.mp hm) hs
    exact readable_of_read? hr

theorem Image.symbols_readable {file : Bytes} {image : Image} (h : read? file = some image) :
    ∀ s ∈ image.symbolTable, s.Readable := by
  -- Wherever the tables are, the symbols are those of one of them.
  obtain ⟨f, sections, number, ht⟩ : ∃ f sections number,
      Symbol.table? f file sections typeSymbolTable = some (number, image.symbolTable) := by
    simp only [read?, Option.bind_eq_bind, Option.bind_some, Option.bind_none,
      Option.bind_eq_some_iff, Option.ite_none_left_eq_some] at h
    obtain ⟨header, _, _, sections, _, h⟩ := h
    split at h
    case isTrue =>
      obtain ⟨_, ht, h⟩ := Option.bind_eq_some_iff.mp h
      obtain ⟨_, _, h⟩ := Option.bind_eq_some_iff.mp h
      split at h <;> cases h
      exact ⟨_, _, _, ht⟩
    case isFalse =>
      obtain ⟨_, _, h⟩ := Option.bind_eq_some_iff.mp h
      obtain ⟨_, _, h⟩ := Option.bind_eq_some_iff.mp h
      split at h
      case isTrue =>
        obtain ⟨_, ht, h⟩ := Option.bind_eq_some_iff.mp h
        obtain ⟨_, _, h⟩ := Option.bind_eq_some_iff.mp h
        split at h <;> cases h
        exact ⟨_, _, _, ht⟩
      case isFalse =>
        obtain ⟨_, _, h⟩ := Option.bind_eq_some_iff.mp h
        obtain ⟨_, ht, h⟩ := Option.bind_eq_some_iff.mp h
        obtain ⟨_, _, h⟩ := Option.bind_eq_some_iff.mp h
        split at h <;> cases h
        exact ⟨_, _, _, ht⟩
  exact Symbol.readable_of_table? ht

end Elf

namespace Object

open Elf

variable {image : Image}

theorem range_name_proper {number length : Nat} {kind : Option SymbolKind} {rs : List Range} {r : Range}
    (hi : ∀ s ∈ image.symbolTable, s.Readable)
    (h : ranges image.symbols number length kind = .ok rs) (hr : r ∈ rs) :
    Proper r.name := by
  obtain ⟨m, hm, _, hn⟩ := exists_of_mem_rangesOf h hr
  obtain ⟨s, hs, he⟩ := exists_of_mem_marks hm
  obtain ⟨hname, _, _, _, hne, _⟩ := mark?_eq_some.mp he
  exact hn ▸ ⟨hne, hi s (List.mem_of_mem_drop hs) _ hname⟩

theorem pinPathAt_proper {name : String} {t : Target} {path : Path}
    (h : pinPathAt image name t = .ok path) : Proper path.text := by
  unfold pinPathAt at h
  split at h
  case h_1 => cases h
  case h_2 =>
    obtain ⟨strings, _, h⟩ := bind_eq_ok.mp h
    split at h <;> cases h
    case h_1 text ht =>
      obtain ⟨ht, hne⟩ := Option.filter_eq_some_iff.mp ht
      exact ⟨by simpa using hne, Text.zero_not_mem_of_ofTerminated? ht⟩

theorem referenceOf_proper {number offset : Nat} {contents : Bytes} {records : List RawRecord}
    {r : Relocation} {path : Path}
    (h : referenceOf image number contents records r = .ok (offset, .pin path)) :
    Proper path.text := by
  unfold referenceOf at h
  dsimp only at h
  split at h
  case h_1 => cases h
  case h_2 record _ =>
    obtain ⟨t, _, h⟩ := bind_eq_ok.mp h
    split at h
    case isTrue => split at h <;> cases h
    case isFalse =>
      split at h
      case isFalse => cases h
      case isTrue =>
        obtain ⟨path', hp, he⟩ := bind_eq_ok.mp h
        cases he
        exact pinPathAt_proper hp

theorem define_wellFormed {records : List RawRecord} {references : List (Nat × Reference)}
    {r : RawRecord} {record : MapRecord} (hn : Proper r.name)
    (hr : ∀ offset path, (offset, .pin path) ∈ references → Proper path.text)
    (h : define records references r = .ok record) : record.definition.WellFormed := by
  simp only [define, bind_eq_ok] at h
  obtain ⟨inner, _, shape, _, h⟩ := h
  split at h <;> cases h
  case isFalse hk =>
    refine ⟨hn, fun hm => ?_, fun path hp => ?_⟩
    case refine_1 =>
      refine Option.isSome_iff_ne_none.mpr fun hi => hk ⟨hm, hi⟩
    case refine_2 =>
      -- The path is that of a reference, and those have been checked.
      obtain ⟨⟨offset, reference⟩, hm, he⟩ := List.mem_filterMap.mp <| List.mem_of_getLast? hp
      dsimp only at he
      split at he
      case h_1 => cases he
      case h_2 =>
        split at he <;> cases he
        exact hr _ _ hm

theorem readMaps_wellFormed {number : Nat} {s : Section} {records : List MapRecord}
    (hi : ∀ s ∈ image.symbolTable, s.Readable) (h : readMaps image number s = .ok records) :
    ∀ record ∈ records, record.definition.WellFormed := by
  obtain ⟨contents, rs, raws, references, _, hrs, hraws, hreferences, hrecords⟩ := readMaps_eq_ok h
  intro record hm
  obtain ⟨raw, hraw, hd⟩ := exists_of_mem_right hrecords hm
  obtain ⟨range, hr, hread⟩ := exists_of_mem_right hraws hraw
  refine define_wellFormed ?_ ?_ hd
  case refine_1 =>
    obtain ⟨_, _, hn, _⟩ := RawRecord.read_eq_ok hread
    exact hn ▸ range_name_proper hi hrs hr
  case refine_2 =>
    intro offset path hp
    obtain ⟨_, _, hr⟩ := exists_of_mem_right hreferences hp
    exact referenceOf_proper hr

theorem maps_wellFormed {mapsNumber : Option Nat} {records : List MapRecord}
    (hi : ∀ s ∈ image.symbolTable, s.Readable) (h : maps image = .ok (mapsNumber, records)) :
    ∀ record ∈ records, record.definition.WellFormed := by
  intro record hr
  obtain ⟨_, _, _, _, hread⟩ := readMaps_of_mem h hr
  exact readMaps_wellFormed hi hread record hr

theorem license_proper {text : String} (h : license image = .ok text) : Proper text := by
  unfold license at h
  split at h
  case h_1 => cases h; exact ⟨by decide, by decide⟩
  case h_2 =>
    obtain ⟨contents, _, h⟩ := bind_eq_ok.mp h
    unfold readLicense at h
    split at h <;> cases h
    case h_1 ht =>
      obtain ⟨ht, hne⟩ := Option.filter_eq_some_iff.mp ht
      exact ⟨by simpa using hne, Text.zero_not_mem_of_ofTerminated? ht⟩

theorem kernelVersion_ne {version : Option UInt32} (h : kernelVersion image = .ok version) :
    version ≠ some anyKernel := by
  unfold kernelVersion at h
  split at h
  case h_1 => cases h; simp
  case h_2 =>
    obtain ⟨contents, _, h⟩ := bind_eq_ok.mp h
    unfold readVersion at h
    split at h <;> cases h
    split <;> simp_all

namespace ProgramSection

variable {s : ProgramSection} {mapsNumber : Option Nat} {records : List MapRecord}

theorem programs_wellFormed {ds : List ProgramDefinition}
    (h : s.programs image mapsNumber records = .ok ds) :
    ∀ d ∈ ds, d.WellFormed (records.map (·.definition.name)) := by
  obtain ⟨ranges, loads, _, hl, hf⟩ := programs_forall₂ h
  intro d hd
  obtain ⟨⟨range, position⟩, hr, hc, he⟩ := exists_of_mem_right hf hd
  obtain ⟨h0, h8, _, _⟩ := codeIn_eq_ok.mp hc
  have hlen := length_of_codeIn hc
  -- A load was made of a relocation inside the range, and of a record.
  have made {load : MapLoad} (hm : load ∈ d.loads) : ∃ offset, ∃ record ∈ records,
      range.Contains offset ∧
      load = ⟨(offset - range.start) / Instruction.size, record.definition.name⟩ := by
    rw [he, mem_loadsAt] at hm
    obtain ⟨r, _, hr'⟩ := exists_of_mem_right (mapM_eq_ok.mp hl) hm
    obtain ⟨range', t, record, hg, hc, _, _, hm, ha, he⟩ := of_loadOf hr'
    cases (List.mem_zipIdx_iff_getElem?.mp hr).symm.trans hg
    exact ⟨r.offset, record, hm, hc, he⟩
  exact {
    code        := fun hn => h0 (by rw [← hlen, hn]; rfl)
    whole       := hlen ▸ h8
    sorted      := by rw [he]; exact loadsAt_pairwise loads position
    inside load hm := by
      obtain ⟨offset, _, _, hc, hi⟩ := made hm
      have hs : Instruction.size = 8 := rfl
      simp only [Range.Contains, Range.length] at hc hlen
      simp only [hi, hlen, hs]
      omega
    defined load hm := by
      obtain ⟨_, record, hr, _, hi⟩ := made hm
      exact List.mem_map.mpr ⟨record, hr, by rw [hi]⟩ }

end ProgramSection

theorem programsIn_wellFormed {text : String} {mapsNumber : Option Nat} {records : List MapRecord}
    {s : Section} {number : Nat} {ds : List ProgramDefinition}
    (h : programsIn image text mapsNumber records s number = .ok ds) :
    ∀ d ∈ ds, d.WellFormed (records.map (·.definition.name)) := by
  unfold programsIn at h
  split at h
  case isTrue => cases h; simp
  case isFalse =>
    split at h
    case h_1 => cases h
    case h_2 =>
      split at h
      case h_1 => cases h; simp
      case h_2 =>
        obtain ⟨contents, _, h⟩ := bind_eq_ok.mp h
        exact ProgramSection.programs_wellFormed h

theorem ofImage_wellFormed {o : ObjectFile} (hi : ∀ s ∈ image.symbolTable, s.Readable)
    (h : ofImage image = .ok o) : o.WellFormed := by
  simp only [ofImage, bind_eq_ok, Prod.exists] at h
  obtain ⟨text, hl, version, hv, mapsNumber, records, hm, programs, hp, he⟩ := h
  cases he
  exact {
    license       := license_proper hl
    kernelVersion := kernelVersion_ne hv
    maps d hd := by
      obtain ⟨record, hr, he⟩ := List.mem_map.mp hd
      exact he ▸ maps_wellFormed hi hm record hr
    programs d hd := by
      obtain ⟨ds, hds, hd⟩ := List.mem_flatten.mp hd
      obtain ⟨_, _, hp⟩ := exists_of_mem_right (mapM_eq_ok.mp hp) hds
      simpa [Function.comp_def] using programsIn_wellFormed hp d hd }

end Object

theorem ObjectFile.wellFormed_of_parse {file : Bytes} {o : ObjectFile} (h : parse file = .ok o) :
    o.WellFormed := by
  unfold parse at h
  split at h
  case h_1 => cases h
  case h_2 image hi => exact Object.ofImage_wellFormed (Elf.Image.symbols_readable hi) h

-- Two programs in one section that count in a map each. One of the maps is pinned.
def Object.Description.gate : Description where
  maps := [
    { name := "entered", kindNumber := 1, keySize := 4, valueSize := 8, maxEntries := 16 },
    { name := "left", kindNumber := 2, keySize := 4, valueSize := 8, maxEntries := 16, pin := some "left" }]
  programs := [
    { name := some "enter", sectionName := "xdp", loads := [(1, "entered")], code := [
      0xb7, 0, 0, 0, 0, 0, 0, 0, 0x18, 2, 0, 0, 0, 0, 0, 0, 0, 0, 0, 0, 0, 0, 0, 0, 0x95, 0, 0, 0, 0, 0, 0, 0] },
    { name := some "leave", sectionName := "xdp", loads := [(0, "left")], code := [
      0x18, 1, 0, 0, 0, 0, 0, 0, 0, 0, 0, 0, 0, 0, 0, 0, 0x95, 0, 0, 0, 0, 0, 0, 0] }]

open Object in
theorem ObjectFile.parse_gate : parse Object.Description.gate.draft.write = .ok {
    license := "GPL"
    kernelVersion := none
    maps := [
      ⟨"entered", ⟨.hash, 4, 8, 16, 0⟩, none, none⟩,
      ⟨"left", ⟨.array, 4, 8, 16, 0⟩, none, some ⟨"left"⟩⟩]
    programs := [
      ⟨"enter", .xdp, "xdp", "GPL", [0xb7, 0, 0, 0, 0, 0, 0, 0, 0x18, 2, 0, 0, 0, 0, 0, 0, 0, 0, 0, 0, 0, 0, 0, 0,
        0x95, 0, 0, 0, 0, 0, 0, 0], [⟨1, "entered"⟩]⟩,
      ⟨"leave", .xdp, "xdp", "GPL", [0x18, 1, 0, 0, 0, 0, 0, 0, 0, 0, 0, 0, 0, 0, 0, 0, 0x95, 0, 0, 0, 0, 0, 0, 0],
        [⟨0, "left"⟩]⟩] } := by
  simp only [ObjectFile.parse, ofImage, Object.maps, readMaps, programsIn, ProgramSection.programs,
    ProgramSection.programRanges, ProgramSection.loadsAt, ranges, marks, mergeSort_key_eq_insertionSort]
  decide +kernel

end EbpfManager
