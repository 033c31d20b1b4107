import EbpfManager.Proofs.Building.Maps
import EbpfManager.Proofs.Objects.Programs

namespace EbpfManager.Object.Description

open Elf

variable {d : Description} {image : Image} {place : Nat → Nat} {sectionName : String} {a : ProgramSpec × Nat}

def programName (p : ProgramSpec) : String :=
  p.name.getD ""

section Sections

theorem sectionNames_nodup (d : Description) : d.sectionNames.Nodup :=
  nodup_eraseDups _

theorem programsNumber_inj {sectionName' : String} (h : sectionName ∈ d.sectionNames)
    (he : d.programsNumber sectionName = d.programsNumber sectionName') : sectionName = sectionName' := by
  refine (List.idxOf_inj h).mp ?_
  simp only [programsNumber] at he
  omega

theorem mem_sectionNames {p : ProgramSpec} (h : p ∈ d.programs) : p.sectionName ∈ d.sectionNames :=
  List.mem_eraseDups.mpr (List.mem_map_of_mem h)

theorem code_ne_nil (hd : d.WellFormed) : ∀ p ∈ d.programsOf sectionName, p.code ≠ [] :=
  fun p hp => (hd.code p (List.mem_filter.mp hp).left).left

-- Of the symbols, the functions of a section are those of its programs.
theorem marks_programs (hd : d.WellFormed) (h : d.draft.Shows place image) :
    image.symbols.filterMap (mark? (place (d.programsNumber sectionName)) (some .function)) =
      (d.programsLaid sectionName).map (pieceMark ProgramSpec.code programName) := by
  have hprograms :
      (d.programSymbols.map (DraftSymbol.read place)).filterMap
        (mark? (place (d.programsNumber sectionName)) (some .function)) =
        (d.programsLaid sectionName).map (pieceMark ProgramSpec.code programName) := by
    rw [programSymbols, ← programsLaid_eq, List.filterMap_map, List.filterMap_filterMap, List.map_map,
      ← List.filterMap_eq_map, List.filterMap_filter]
    refine List.filterMap_congr ?_
    rintro ⟨p, position⟩ hp
    have hp := List.fst_mem_of_mem_zipIdx hp
    obtain ⟨name, hn, hproper⟩ := hd.programName p hp
    let s : DraftSymbol := ⟨name, true, d.programsNumber p.sectionName, d.codeOffset position p.sectionName,
      p.code.length⟩
    simp only [hn, Option.map_some, Option.bind_some, Function.comp]
    by_cases hs : p.sectionName = sectionName
    case pos =>
      subst hs
      have hm : mark? (place (d.programsNumber p.sectionName)) (some .function) (s.read place) =
        some ⟨s.value, s.size, s.name⟩ :=
        mark?_read rfl (Nat.succ_ne_zero _) (fun _ => Option.mem_some.mp) hproper.left
      simpa [pieceMark, programName, hn] using hm
    case neg =>
      have hm : mark? (place (d.programsNumber sectionName)) (some .function) (s.read place) = none :=
        mark?_read_of_ne h.ascending fun he => hs (programsNumber_inj (mem_sectionNames hp) he)
      simpa [hs] using hm
  have hothers {symbols : List DraftSymbol} (hs : ∀ s ∈ symbols, s.isFunction = false) :
      (symbols.map (DraftSymbol.read place)).filterMap
        (mark? (place (d.programsNumber sectionName)) (some .function)) = [] := by
    rw [List.filterMap_map, List.filterMap_eq_nil_iff]
    exact fun s hm => mark?_read_of_not (hs s hm)
  have hmaps : ∀ s ∈ d.mapSymbols, s.isFunction = false := List.forall_mem_map.mpr fun _ _ => rfl
  have htexts : ∀ s ∈ d.textSymbols, s.isFunction = false := List.forall_mem_map.mpr fun _ _ => rfl
  have hsymbols : d.draft.symbols = d.mapSymbols ++ d.programSymbols ++ d.textSymbols := by
    simp [draft, symbols, definedSymbols, undefinedNames_eq_nil hd]
  rw [h.symbols, hsymbols, List.map_append, List.map_append, List.filterMap_append, List.filterMap_append,
    hothers hmaps, hprograms, hothers htexts, List.append_nil, List.nil_append]

end Sections

section Reading

-- A section of programs as it is read.
def programSection (d : Description) (place : Nat → Nat) (kind : ProgramKind) (sectionName : String) :
    ProgramSection where
  number      := place (d.programsNumber sectionName)
  name        := sectionName
  kind        := kind
  license     := d.license.getD "GPL"
  contents    := (d.codeSection sectionName).contents
  relocations := (d.codeRelocations sectionName).map readRelocation

def rangesIn (d : Description) (sectionName : String) : List Range :=
  (d.programsLaid sectionName).map (pieceRange ProgramSpec.code programName)

-- The loads of the programs in a section, with the positions of the programs.
def loadsIn (d : Description) (sectionName : String) : List (Nat × MapLoad) :=
  (d.programsLaid sectionName).zipIdx.flatMap fun (a, position) =>
    a.1.loads.map fun (index, map) => (position, ⟨index, map⟩)

variable {kind : ProgramKind}

theorem programRanges_eq (hd : d.WellFormed) (b : image.Bounded) (h : d.draft.Shows place image)
    (hn : sectionName ∈ d.sectionNames) :
    (d.programSection place kind sectionName).programRanges image = .ok (d.rangesIn sectionName) := by
  obtain ⟨p, hp, rfl⟩ := List.mem_map.mp (List.mem_eraseDups.mp hn)
  have hranges : ranges image.symbols (place (d.programsNumber p.sectionName))
      (d.codeSection p.sectionName).contents.length (some .function) = .ok (d.rangesIn p.sectionName) :=
    ranges_laid (by decide) (code_ne_nil hd) (h.contents_lt b (codeSection_mem hp)) (marks_programs hd h)
  have hne : d.rangesIn p.sectionName ≠ [] := by
    obtain ⟨position, hp⟩ := List.mem_iff_getElem?.mp hp
    exact List.ne_nil_of_mem (List.mem_map_of_mem (mem_programsLaid hp))
  refine bind_eq_ok.mpr ⟨_, hranges, ?_⟩
  split
  case h_1 hnil => exact absurd hnil hne
  case h_2 => rfl

theorem codeIn_eq (hd : d.WellFormed) (ha : a ∈ d.programsLaid sectionName) :
    (d.programSection place kind sectionName).codeIn (pieceRange ProgramSpec.code programName a) = .ok a.1.code := by
  obtain ⟨hne, hdvd⟩ := hd.code a.1 (mem_of_mem_programsLaid ha).left
  have hl : (pieceRange ProgramSpec.code programName a).length = a.1.code.length := Nat.add_sub_cancel_left ..
  obtain ⟨hle, hs⟩ := Bytes.slice?_eq_some.mp (slice?_laid (by decide) ha)
  rw [ProgramSection.codeIn_eq_ok, hl]
  exact ⟨mt List.length_eq_zero_iff.mp hne, Nat.mod_eq_zero_of_dvd hdvd, hle, hs⟩

-- The program that a part of a section belongs to.
theorem find?_range (hd : d.WellFormed) {position offset : Nat}
    (ha : (d.programsLaid sectionName)[position]? = some a)
    (ho : a.2 ≤ offset ∧ offset < a.2 + a.1.code.length) :
    (d.rangesIn sectionName).zipIdx.find? (·.1.Contains offset) =
      some (pieceRange ProgramSpec.code programName a, position) := by
  have hn : (d.programsLaid sectionName).Nodup := laid_nodup (by decide) (code_ne_nil hd)
  refine find?_of_unique (List.mk_mem_zipIdx_iff_getElem?.mpr ?_) (decide_eq_true ho)
    fun (range, position') hb hc => ?_
  case refine_1 => rw [rangesIn, List.getElem?_map, ha, Option.map_some]
  case refine_2 =>
    have hb := List.mk_mem_zipIdx_iff_getElem?.mp hb
    rw [rangesIn, List.getElem?_map] at hb
    obtain ⟨b, hg, rfl⟩ := Option.map_eq_some_iff.mp hb
    have hab : b = a := eq_of_mem_laid (by decide) (List.mem_of_getElem? hg) (List.mem_of_getElem? ha)
      (of_decide_eq_true hc) ho
    subst hab
    have hl := (List.getElem?_eq_some_iff.mp ha).fst
    rw [(List.getElem?_inj hl hn).mp (ha.trans hg.symm)]

theorem loadOf_eq (hd : d.WellFormed) (b : image.Bounded) (h : d.draft.Shows place image) {position : Nat}
    (ha : (d.programsLaid sectionName)[position]? = some a) {l : Nat × String} (hl : l ∈ a.1.loads) :
    (d.programSection place kind sectionName).loadOf image (some (place d.mapsNumber)) (d.mapsLaid.map d.mapRecord)
      (d.rangesIn sectionName) (readRelocation (a.2 + Instruction.size * l.1, d.symbolNumber l.2)) =
        .ok (position, ⟨l.1, l.2⟩) := by
  have hm := List.mem_of_getElem? ha
  obtain ⟨hname, himm⟩ := hd.load a.1 (mem_of_mem_programsLaid hm).left l hl
  obtain ⟨i, m, hi, hmname, he⟩ := exists_map hd hname
  have hin := (Bytes.slice?_eq_some.mp himm).left
  have hv : d.recordOffset i < Bytes.limit 8 := by
    have hle := record_le hd hi
    have hlt := h.contents_lt b (mapsSection_mem (List.mem_of_getElem? hi))
    omega
  have ht := target_shown h (symbols_defined (definedSymbols_map hi))
    (mapsNumber_ne (List.ne_nil_of_mem (List.mem_of_getElem? hi))) hv sectionName (a.2 + Instruction.size * l.1)
  have hz : (((d.codeSection sectionName).contents.slice? (a.2 + Instruction.size * l.1 + 4) 4).map
      image.order.toInt).getD 0 = 0 := by
    have hs := Bytes.slice?_slice? (slice?_laid (by decide) hm) himm
    rw [← Nat.add_assoc] at hs
    have h0 : ByteOrder.little.toInt [0, 0, 0, 0] = 0 := ByteOrder.toInt_zeros 4
    have hc : (d.codeSection sectionName).contents.slice? (a.2 + Instruction.size * l.1 + 4) 4 =
        some [0, 0, 0, 0] := hs
    rw [hc, h.order, Option.map_some, Option.getD_some, h0]
  have hrecord : (d.mapsLaid.map d.mapRecord).find? (·.offset = d.recordOffset i) =
      some (d.mapRecord (m, d.recordOffset i)) := by
    rw [List.find?_map]
    exact congrArg (Option.map d.mapRecord) (find?_offset hd (a := (m, d.recordOffset i)) (mem_mapsLaid hi))
  have ho : a.2 ≤ a.2 + Instruction.size * l.1 ∧ a.2 + Instruction.size * l.1 < a.2 + a.1.code.length :=
    ⟨by omega, by omega⟩
  have hfind := find?_range hd ha ho
  rw [he]
  have hoffset : (readRelocation (a.2 + Instruction.size * l.1, i + 1)).offset =
      a.2 + Instruction.size * l.1 := rfl
  generalize readRelocation (a.2 + Instruction.size * l.1, i + 1) = r at ht hoffset ⊢
  rw [← hoffset] at hz hfind
  unfold ProgramSection.loadOf
  rw [hfind]
  simp only [programSection, hz, ht]
  have hindex : (r.offset - (pieceRange ProgramSpec.code programName a).start) / Instruction.size = l.1 := by
    rw [hoffset, pieceRange, Nat.add_sub_cancel_left, Nat.mul_div_cancel_left _ (by decide)]
  refine bind_eq_ok.mpr ⟨_, rfl, ?_⟩
  rw [if_neg (not_not.mpr rfl)]
  simp only [hrecord, hindex]
  rw [← hmname]
  rfl

theorem mapM_loads (hd : d.WellFormed) (b : image.Bounded) (h : d.draft.Shows place image) :
    (d.programSection place kind sectionName).relocations.mapM ((d.programSection place kind sectionName).loadOf image
      (if d.maps.isEmpty then none else some (place d.mapsNumber)) (d.mapsLaid.map d.mapRecord)
      (d.rangesIn sectionName)) =
        .ok (d.loadsIn sectionName) := by
  have hrelocations : (d.programSection place kind sectionName).relocations =
      ((d.programsLaid sectionName).zipIdx.flatMap fun (a, _) => a.1.loads.map fun (index, name) =>
        (a.2 + Instruction.size * index, d.symbolNumber name)).map readRelocation := by
    have hz := List.zipIdx_map_fst 0 (d.programsLaid sectionName)
    rw [programSection, codeRelocations_eq, ← hz, List.flatMap_map, hz]
  rw [mapM_eq_ok, hrelocations, List.forall₂_map_left_iff]
  refine forall₂_flatMap fun (a, position) ha => ?_
  rw [List.forall₂_map_left_iff, List.forall₂_map_right_iff, List.forall₂_same]
  intro l hl
  have ha := List.mk_mem_zipIdx_iff_getElem?.mp ha
  -- Where there is a load, there is a map.
  have hm : d.maps.isEmpty = false := by
    have hp := (mem_of_mem_programsLaid (List.mem_of_getElem? ha)).left
    obtain ⟨m, hm, _⟩ := List.mem_map.mp (hd.load a.1 hp l hl).left
    exact List.isEmpty_eq_false_iff.mpr (List.ne_nil_of_mem hm)
  simp only [hm, Bool.false_eq_true, if_false]
  exact loadOf_eq hd b h ha hl

theorem loadsAt_eq {position : Nat} (ha : (d.programsLaid sectionName)[position]? = some a) :
    ProgramSection.loadsAt (d.loadsIn sectionName) position = (d.programDefinition a.1).loads := by
  have hf : (d.loadsIn sectionName).filterMap (fun l => if l.1 = position then some l.2 else none) =
      a.1.loads.map fun l => ⟨l.1, l.2⟩ := by
    rw [loadsIn, List.filterMap_flatMap]
    refine (flatMap_of_unique (nodup_zipIdx _) (List.mk_mem_zipIdx_iff_getElem?.mpr ha) ?_).trans ?_
    case refine_1 =>
      rintro ⟨b, position'⟩ hb hne
      have hb := List.mk_mem_zipIdx_iff_getElem?.mp hb
      have hp : position' ≠ position := by
        rintro rfl
        exact hne (by rw [Option.some_inj.mp (hb.symm.trans ha)])
      rw [List.filterMap_map, List.filterMap_eq_nil_iff]
      exact fun l _ => if_neg hp
    case refine_2 => simp [List.filterMap_map]
  exact congrArg (fun loads : List MapLoad => loads.mergeSort (·.index ≤ ·.index)) hf

theorem programs_eq (hd : d.WellFormed) (b : image.Bounded) (h : d.draft.Shows place image)
    (hn : sectionName ∈ d.sectionNames) (hk : ProgramKind.ofSectionName? sectionName = some kind) :
    (d.programSection place kind sectionName).programs image
    (if d.maps.isEmpty then none else some (place d.mapsNumber))
      (d.mapsLaid.map d.mapRecord) = .ok ((d.programsOf sectionName).map d.programDefinition) := by
  have hcodes : (d.rangesIn sectionName).mapM (d.programSection place kind sectionName).codeIn =
      .ok ((d.programsLaid sectionName).map (·.1.code)) :=
    mapM_map_eq_ok fun a ha => codeIn_eq hd ha
  refine bind_eq_ok.mpr ⟨_, programRanges_eq hd b h hn, bind_eq_ok.mpr ⟨_, hcodes, ?_⟩⟩
  refine bind_eq_ok.mpr ⟨_, mapM_loads hd b h, congrArg Except.ok ?_⟩
  have hp : d.programsOf sectionName = (d.programsLaid sectionName).map Prod.fst :=
    (map_fst_laid 8 ProgramSpec.code (d.programsOf sectionName)).symm
  have hz := List.zipIdx_map_fst 0 (d.programsLaid sectionName)
  rw [rangesIn, List.zip_map', List.zipIdx_map, List.map_map, hp, List.map_map, ← hz, List.map_map, hz]
  refine List.map_congr_left fun (a, position) ha => ?_
  have ha := List.mk_mem_zipIdx_iff_getElem?.mp ha
  have hs := (mem_of_mem_programsLaid (List.mem_of_getElem? ha)).right
  simp only [Function.comp, Prod.map, id, loadsAt_eq ha]
  simp [programDefinition, programSection, pieceRange, programName, hs, hk]

end Reading

end EbpfManager.Object.Description
