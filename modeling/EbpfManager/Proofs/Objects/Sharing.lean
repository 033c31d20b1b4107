import EbpfManager.Proofs.Loading.Links
import EbpfManager.Proofs.Objects.Leaders

namespace EbpfManager.Object

open Elf

-- The load that a relocation in a part stands for: that of the map whose record is at the place the
-- relocation refers to.
def StandsFor (image : Image) (contents : Bytes) (range : Range) (r : Relocation) (l : MapLoad) :
    Prop :=
  ∃ t records record, maps image = .ok (some t.number, records) ∧ RefersTo image contents r t ∧
    records.filter (·.offset = t.address) = [record] ∧
    l = ⟨(r.offset - range.start) / Instruction.size, record.definition.name⟩

-- A program that was made of a part of a section and some of the relocations in the part.
structure MadeOf (image : Image) (contents : Bytes) (range : Range) (relocations : List Relocation)
    (d : ProgramDefinition) : Prop where
  name   : d.name = range.name
  inside : range.start < range.stop ∧ range.stop ≤ contents.length
  code   : d.code = octetsOf contents range
  loads  : ∃ loads, List.Forall₂ (StandsFor image contents range) relocations loads ∧
             d.loads.Perm loads
  sorted : d.loads.Pairwise (·.index ≤ ·.index)

-- The relocations in a part.
def within (relocations : List Relocation) (range : Range) : List Relocation :=
  relocations.filter (range.Contains ·.offset)

-- The relocations in the part at a position, and in none before it.
def firstWithin (relocations : List Relocation) (ranges : List Range) (position : Nat) :
    List Relocation :=
  relocations.filter fun r => ranges.findIdx? (·.Contains r.offset) = some position

-- What is made of a section with functions: a program of each leader, with the relocations that are
-- in no part before. There is no other relocation.
def MadeOfLeaders (image : Image) (number : Nat) (contents : Bytes) (relocations : List Relocation)
    (ds : List ProgramDefinition) : Prop :=
  ∃ leaders ranges, Leaders (functionsIn image number) leaders ∧
    ranges = leaders.map (part image number contents) ∧
    (∀ r ∈ relocations, ∃ range ∈ ranges, range.Contains r.offset) ∧
    List.Forall₂ (fun (range, position) d =>
      MadeOf image contents range (firstWithin relocations ranges position) d) ranges.zipIdx ds

-- What should be made of it: a program of each function, by address, with all the relocations in its
-- part.
def MadeOfEach (image : Image) (number : Nat) (contents : Bytes) (relocations : List Relocation)
    (ds : List ProgramDefinition) : Prop :=
  List.Forall₂ (fun f d =>
      MadeOf image contents (part image number contents f)
        (within relocations (part image number contents f)) d)
    ((functionsIn image number).mergeSort (·.address ≤ ·.address)) ds

-- Two parts without a relocation that is in both.
def Separate (relocations : List Relocation) (range range' : Range) : Prop :=
  ∀ r ∈ relocations, range.Contains r.offset → ¬range'.Contains r.offset

theorem Separate.symm {relocations : List Relocation} {range range' : Range}
    (h : Separate relocations range range') : Separate relocations range' range :=
  fun r hr hc' hc => h r hr hc hc'

-- No two functions begin at one address, and no relocation is in the parts of two.
structure Unshared (image : Image) (number : Nat) (contents : Bytes)
    (relocations : List Relocation) : Prop where
  addresses   : (functionsIn image number).Pairwise (·.address ≠ ·.address)
  relocations : ((functionsIn image number).map (part image number contents)).Pairwise
                  (Separate relocations)

variable {image : Image} {number : Nat} {contents : Bytes} {relocations : List Relocation}
  {ds : List ProgramDefinition}

section Programs

variable {s : ProgramSection} {records : List MapRecord} {mapsNumber : Option Nat}
  {ranges : List Range} {range : Range} {r : Relocation}

namespace ProgramSection

-- A load goes to the first part that has the offset.
theorem loadOf_eq_ok {position : Nat} {l : MapLoad} (hm : maps image = .ok (mapsNumber, records))
    (h : s.loadOf image mapsNumber records ranges r = .ok (position, l)) :
    ranges.findIdx? (·.Contains r.offset) = some position ∧
      ∃ range, ranges[position]? = some range ∧ StandsFor image s.contents range r l := by
  obtain ⟨range, t, record, hg, _, ht, hn, hr, ha, hl⟩ := of_loadOf h
  refine ⟨position_of_loadOf h, range, hg, t, records, record, hn ▸ hm, ht, ?_, hl⟩
  obtain ⟨_, _, _, _, _, _, hone, _⟩ := record_of_mem hm hr
  rwa [ha] at hone

-- Each part becomes a program with its relocations.
theorem forall₂_madeOf (hm : maps image = .ok (mapsNumber, records))
    (h : s.programs image mapsNumber records = .ok ds) : ∃ ranges,
      s.programRanges image = .ok ranges ∧
      (∀ r ∈ s.relocations, ∃ range ∈ ranges, range.Contains r.offset) ∧
      List.Forall₂ (fun (range, position) d =>
        MadeOf image s.contents range (firstWithin s.relocations ranges position) d)
        ranges.zipIdx ds := by
  obtain ⟨ranges, loads, hr, hl, hds⟩ := programs_forall₂ h
  have hl := mapM_eq_ok.mp hl
  have hpositions : ∀ rp ∈ ranges.zipIdx, ranges[rp.2]? = some rp.1 :=
    fun _ hrp => List.mem_zipIdx_iff_getElem?.mp hrp
  have hds := (List.forall₂_and_left ..).mpr ⟨hpositions, hds⟩
  refine ⟨ranges, hr, fun r hr => ?_, hds.imp ?_⟩
  case refine_1 =>
    obtain ⟨⟨position, l⟩, _, hload⟩ := exists_of_mem_left hl hr
    obtain ⟨range, _, _, hg, hc, _⟩ := of_loadOf hload
    exact ⟨range, List.mem_of_getElem? hg, hc⟩
  case refine_2 =>
    rintro ⟨range, position⟩ d ⟨hg, hc, he⟩
    obtain ⟨h0, _, hstop, hcode⟩ := codeIn_eq_ok.mp hc
    have hloads : d.loads = loadsAt loads position := by rw [he]
    rw [Range.length] at h0
    exact {
      name   := by rw [he]
      inside := ⟨by omega, hstop⟩
      code   := hcode
      loads  := by
        refine ⟨_, forall₂_filterMap hl ?_, (List.Perm.of_eq hloads).trans (List.mergeSort_perm ..)⟩
        rintro r ⟨owner, l⟩ hload
        obtain ⟨hfirst, range', hg', hs⟩ := loadOf_eq_ok hm hload
        by_cases hp : owner = position
        case pos =>
          cases hp
          cases hg.symm.trans hg'
          exact .inl ⟨by simp [hfirst], l, by simp, hs⟩
        case neg => exact .inr ⟨by simpa [hfirst] using hp, by simp [hp]⟩
      sorted := hloads ▸ loadsAt_pairwise loads position }

theorem programRanges_eq_ok (h : s.programRanges image = .ok ranges) :
    (functionsIn image s.number = [] → ranges.length = 1) ∧
      (functionsIn image s.number ≠ [] → ∃ leaders, Leaders (functionsIn image s.number) leaders ∧
        ranges = leaders.map (part image s.number s.contents)) := by
  obtain ⟨rs, hrs, h⟩ := bind_eq_ok.mp h
  obtain ⟨leaders, hl, he⟩ := ranges_eq hrs
  rw [beginnings_function] at hl he
  have hnil : functionsIn image s.number = [] ↔ rs = [] := by
    rw [he, List.map_eq_nil_iff]
    exact hl.eq_nil_iff.symm
  split at h <;> cases h
  case h_1 => exact ⟨fun _ => rfl, fun hf => absurd (hnil.mpr rfl) hf⟩
  case h_2 hne => exact ⟨fun hf => absurd (hnil.mp hf) hne, fun _ => ⟨leaders, hl, he⟩⟩

end ProgramSection

end Programs

section

variable {ranges : List Range} {range : Range} {position : Nat} {r : Relocation}

theorem mem_within : r ∈ within relocations range ↔ r ∈ relocations ∧ range.Contains r.offset := by
  simp [within]

theorem mem_firstWithin : r ∈ firstWithin relocations ranges position ↔
    r ∈ relocations ∧ ranges.findIdx? (·.Contains r.offset) = some position := by
  simp [firstWithin]

theorem firstWithin_sublist (hg : ranges[position]? = some range) :
    (firstWithin relocations ranges position).Sublist (within relocations range) := by
  refine List.monotone_filter_right relocations fun r hr => ?_
  obtain ⟨_, hc, _⟩ := List.findIdx?_eq_some_iff_getElem.mp (of_decide_eq_true hr)
  obtain ⟨_, hg⟩ := List.getElem?_eq_some_iff.mp hg
  rwa [hg] at hc

-- No part loses a relocation to a part before if no relocation is in two.
theorem firstWithin_eq_within_iff : (∀ position range, ranges[position]? = some range →
      firstWithin relocations ranges position = within relocations range) ↔
    ranges.Pairwise (Separate relocations) := by
  constructor
  case mp =>
    intro h
    refine List.pairwise_iff_getElem.mpr fun i j hi hj hlt r hr hc hc' => ?_
    have h₁ := h i _ (List.getElem?_eq_getElem hi) ▸ mem_within.mpr ⟨hr, hc⟩
    have h₂ := h j _ (List.getElem?_eq_getElem hj) ▸ mem_within.mpr ⟨hr, hc'⟩
    have he := (mem_firstWithin.mp h₁).right.symm.trans (mem_firstWithin.mp h₂).right
    cases he
    exact Nat.lt_irrefl _ hlt
  case mpr =>
    intro h position range hg
    refine List.filter_congr fun r hr => ?_
    rw [decide_eq_decide, List.findIdx?_eq_some_iff_getElem]
    obtain ⟨hlt, hg⟩ := List.getElem?_eq_some_iff.mp hg
    constructor
    case mp =>
      rintro ⟨_, hc, _⟩
      simpa [hg] using hc
    case mpr =>
      intro hc
      refine ⟨hlt, by simpa [hg] using hc, fun i hi hc' => ?_⟩
      exact List.pairwise_iff_getElem.mp h i position _ hlt hi r hr (by simpa using hc') (hg ▸ hc)

end

-- The parts of the functions are as separate as those of the leaders that all of them are.
theorem separate_iff {leaders : List Symbol} (hp : (functionsIn image number).Perm leaders) :
    ((functionsIn image number).map (part image number contents)).Pairwise (Separate relocations) ↔
      (leaders.map (part image number contents)).Pairwise (Separate relocations) :=
  (hp.map _).pairwise_iff Separate.symm

namespace MadeOfLeaders

-- What is shared is left out, and so nothing is shared if nothing is left out.
theorem unshared (h : MadeOfLeaders image number contents relocations ds)
    (he : MadeOfEach image number contents relocations ds) :
    Unshared image number contents relocations := by
  obtain ⟨leaders, ranges, hl, hr, _, hf⟩ := h
  subst hr
  have hlength : (functionsIn image number).length = leaders.length := by
    have h₁ := hf.length_eq
    have h₂ := he.length_eq
    simp only [List.length_zipIdx, List.length_map, List.length_mergeSort] at h₁ h₂
    omega
  have hd := hl.pairwise_of_length hlength
  have hs := hl.eq_mergeSort hd
  have hp : (functionsIn image number).Perm leaders := hs ▸ (List.mergeSort_perm ..).symm
  refine ⟨hd, (separate_iff hp).mpr <| firstWithin_eq_within_iff.mp fun position range hg => ?_⟩
  -- The program at the position was made of as many relocations as there are in its part.
  obtain ⟨f, hf', he'⟩ := Option.map_eq_some_iff.mp (List.getElem?_map .. ▸ hg)
  rw [MadeOfEach, hs] at he
  have hz : (leaders.map (part image number contents)).zipIdx[position]? = some (range, position) := by
    simp [hf', he']
  obtain ⟨d, hd, hfirst⟩ := exists_getElem?_of_forall₂ hf hz
  obtain ⟨d', hd', hwithin⟩ := exists_getElem?_of_forall₂ he hf'
  cases hd.symm.trans hd'
  obtain ⟨_, hfirst, hp₁⟩ := hfirst.loads
  obtain ⟨_, hwithin, hp₂⟩ := hwithin.loads
  have hn := hfirst.length_eq.trans <| (hp₁.symm.trans hp₂).length_eq.trans hwithin.length_eq.symm
  exact (firstWithin_sublist hg).eq_of_length (he' ▸ hn)

theorem madeOfEach (h : MadeOfLeaders image number contents relocations ds)
    (hu : Unshared image number contents relocations) :
    MadeOfEach image number contents relocations ds := by
  obtain ⟨leaders, ranges, hl, hr, _, hf⟩ := h
  subst hr
  have hs := hl.eq_mergeSort hu.addresses
  have hp : (functionsIn image number).Perm leaders := hs ▸ (List.mergeSort_perm ..).symm
  have hw := firstWithin_eq_within_iff.mpr ((separate_iff hp).mp hu.relocations)
  rw [MadeOfEach, hs]
  refine forall₂_of_zipIdx hf fun position f d hf hm => ?_
  have hg : (leaders.map (part image number contents))[position]? =
      some (part image number contents f) := by
    simp [hf]
  exact hw position _ hg ▸ hm

end MadeOfLeaders

-- What is made of a section: nothing of one that is not for programs, and one program of a section for
-- programs without functions.
structure SectionRead (image : Image) (number : Nat) (sec : Section)
    (ds : List ProgramDefinition) : Prop where
  none            : (¬∃ contents, HoldsPrograms image number sec contents) → ds = []
  whole contents  : HoldsPrograms image number sec contents → functionsIn image number = [] →
                      ds.length = 1
  leaders contents : HoldsPrograms image number sec contents → functionsIn image number ≠ [] →
                      MadeOfLeaders image number contents sec.relocations ds

theorem sectionRead {license : String} {sec : Section} {mapsNumber : Option Nat}
    {records : List MapRecord} (hm : maps image = .ok (mapsNumber, records)) (hn : 0 < number)
    (hs : image.sections[number]? = some sec)
    (h : programsIn image license mapsNumber records sec number = .ok ds) :
    SectionRead image number sec ds where
  none hnone := by
    simp only [programsIn] at h
    split at h
    case isTrue =>
      cases h
      rfl
    case isFalse hcode =>
      split at h
      case h_1 => cases h
      case h_2 name hname =>
        split at h
        case h_1 =>
          cases h
          rfl
        case h_2 kind hkind =>
          obtain ⟨contents, hc, _⟩ := bind_eq_ok.mp h
          refine absurd ⟨contents, ?_⟩ hnone
          obtain ⟨htext, hkind⟩ := Option.ite_none_left_eq_some.mp hkind
          exact ⟨hs, hn, by simpa using hcode, contentsOf_eq_ok.mp hc, name, kind, hname, htext, hkind⟩
  whole contents hh hf := by
    obtain ⟨name, kind, hp⟩ := programsIn_eq_ok hh h
    obtain ⟨ranges, hr, _, hds⟩ := ProgramSection.forall₂_madeOf hm hp
    have hl := hds.length_eq
    rw [List.length_zipIdx] at hl
    rw [← hl, (ProgramSection.programRanges_eq_ok hr).left hf]
  leaders contents hh hf := by
    obtain ⟨name, kind, hp⟩ := programsIn_eq_ok hh h
    obtain ⟨ranges, hr, hc, hds⟩ := ProgramSection.forall₂_madeOf hm hp
    obtain ⟨leaders, hl, he⟩ := (ProgramSection.programRanges_eq_ok hr).right hf
    exact ⟨leaders, ranges, hl, he, hc, hds⟩

end EbpfManager.Object

namespace EbpfManager.ObjectFile

open Elf Object

-- Every function of a section becomes a program with all the loads in its part of the section just if no two
-- functions begin at one address and no relocation is in the parts of two.
theorem parse_functions {file : Bytes} {image : Image} {o : ObjectFile}
    (hi : Image.read? file = some image) (ho : ObjectFile.parse file = .ok o) :
    ∃ groups, o.programs = groups.flatten ∧
      List.Forall₂ (fun (sec, number) ds => SectionRead image number sec ds ∧
        ∀ contents, HoldsPrograms image number sec contents → functionsIn image number ≠ [] →
          (MadeOfEach image number contents sec.relocations ds ↔
            Unshared image number contents sec.relocations))
        (image.sections.zipIdx.drop 1) groups := by
  have hp : ofImage image = .ok o := by simpa [ObjectFile.parse, hi] using ho
  simp only [ofImage, bind_eq_ok, Prod.exists] at hp
  obtain ⟨license, _, version, _, mapsNumber, records, hm, groups, hg, he⟩ := hp
  cases he
  have hsections : ∀ sn ∈ image.sections.zipIdx.drop 1,
      0 < sn.2 ∧ image.sections[sn.2]? = some sn.1 := fun _ => mem_drop_zipIdx.mp
  refine ⟨groups, rfl, ?_⟩
  refine ((List.forall₂_and_left ..).mpr ⟨hsections, mapM_eq_ok.mp hg⟩).imp ?_
  rintro ⟨sec, number⟩ ds ⟨⟨hn, hs⟩, hds⟩
  have hread := sectionRead hm hn hs hds
  refine ⟨hread, fun contents hh hf => ?_⟩
  have hl := hread.leaders contents hh hf
  exact ⟨hl.unshared, hl.madeOfEach⟩

def nestedContents : Bytes :=
  [0xb7, 0, 0, 0, 0, 0, 0, 0] ++ loadingCode 1

-- Two functions with one end. The one load is in the parts of both.
def nested : Draft where
  symbols  := [⟨"m", false, 1, 0, 40⟩, ⟨"outer", true, 2, 0, 40⟩, ⟨"inner", true, 2, 8, 32⟩]
  sections := [
    ⟨"maps", .data, MapSpec.record 40
      { name := "m", kindNumber := MapKind.hash.number, keySize := 4, valueSize := 4, maxEntries := 8 },
      []⟩,
    ⟨"xdp", .code, nestedContents, [(8, 1)]⟩]

def nestedImage : Image :=
  (Image.read? nested.write).get (by decide +kernel)

def nestedSection : Section where
  name        := some [120, 100, 112]
  isCode      := true
  contents    := some nestedContents
  relocations := [⟨8, some 1, .inPlace⟩]

def inner : Symbol :=
  ⟨some "inner", .function, some 2, 8, 32⟩

theorem holdsPrograms_nested : HoldsPrograms nestedImage 2 nestedSection nestedContents where
  section_ := by decide +kernel
  positive := by decide
  code     := rfl
  contents := rfl
  kind     := ⟨"xdp", .xdp, by decide +kernel, by decide, by decide +kernel⟩

theorem parse_nested : ObjectFile.parse nested.write = .ok {
    license := "GPL"
    kernelVersion := none
    maps := [⟨"m", ⟨.hash, 4, 4, 8, 0⟩, none, none⟩]
    programs := [
      ⟨"outer", .xdp, "xdp", "GPL", nestedContents, [⟨1, "m"⟩]⟩,
      ⟨"inner", .xdp, "xdp", "GPL", loadingCode 1, []⟩] } := by
  simp only [ObjectFile.parse, ofImage, Object.maps, readMaps, programsIn, ProgramSection.programs,
    ProgramSection.programRanges, ProgramSection.loadsAt, ranges, marks, mergeSort_key_eq_insertionSort]
  decide +kernel

theorem nested_not_madeOfEach : ∃ image o, Image.read? nested.write = some image ∧
    ObjectFile.parse nested.write = .ok o ∧
    ¬∃ groups, o.programs = groups.flatten ∧
      List.Forall₂ (fun (sec, number) ds => ∀ contents, HoldsPrograms image number sec contents →
        functionsIn image number ≠ [] → MadeOfEach image number contents sec.relocations ds)
        (image.sections.zipIdx.drop 1) groups := by
  have hi : Image.read? nested.write = some nestedImage := by rw [nestedImage, Option.some_get]
  refine ⟨nestedImage, _, hi, parse_nested, ?_⟩
  rintro ⟨groups, hp, hg⟩
  have hs : (nestedSection, 2) ∈ nestedImage.sections.zipIdx.drop 1 := by decide +kernel
  obtain ⟨ds, hds, h⟩ := exists_of_mem_left hg hs
  -- A program of `inner` with the load would be among all programs. There is none.
  have hf : inner ∈ functionsIn nestedImage 2 := by decide +kernel
  have hm := h nestedContents holdsPrograms_nested (List.ne_nil_of_mem hf)
  obtain ⟨d, hd, hmade⟩ := exists_of_mem_left hm (List.mem_mergeSort.mpr hf)
  have hd := List.mem_flatten.mpr ⟨ds, hds, hd⟩
  rw [← hp] at hd
  have hname : d.name = "inner" := hmade.name.trans (by decide +kernel)
  obtain ⟨loads, hl, hperm⟩ := hmade.loads
  have hlength : d.loads.length = 1 :=
    hperm.length_eq.trans <| hl.length_eq.symm.trans (by decide +kernel)
  cases List.mem_cons.mp hd
  case inl he => exact absurd (he ▸ hname) (by decide)
  case inr he =>
    cases List.mem_singleton.mp he
    cases hlength

theorem parse_functions_of_gate : ∃ o groups, ObjectFile.parse Description.gate.draft.write = .ok o ∧
    o.programs = groups.flatten ∧
      List.Forall₂ (fun (sec, number) ds => SectionRead Collection.gateImage number sec ds ∧
        ∀ contents, HoldsPrograms Collection.gateImage number sec contents →
          functionsIn Collection.gateImage number ≠ [] →
          (MadeOfEach Collection.gateImage number contents sec.relocations ds ↔
            Unshared Collection.gateImage number contents sec.relocations))
        (Collection.gateImage.sections.zipIdx.drop 1) groups := by
  have hi : Image.read? Description.gate.draft.write = some Collection.gateImage := by
    rw [Collection.gateImage, Option.some_get]
  obtain ⟨groups, h⟩ := parse_functions hi parse_gate
  exact ⟨_, groups, parse_gate, h⟩

end EbpfManager.ObjectFile
