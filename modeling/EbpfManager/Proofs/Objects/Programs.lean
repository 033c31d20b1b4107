import EbpfManager.Object.ProgramSection
import EbpfManager.Proofs.Objects.Functions

namespace EbpfManager.Object

open Elf

variable {image : Image}

-- The immediate of the instruction at an offset.
def immediateAt (image : Image) (contents : Bytes) (offset : Nat) : Int :=
  ((contents.slice? (offset + 4) 4).map image.order.toInt).getD 0

-- The addend of a relocation, where `inPlace` stands at the place to be changed.
def addendOf (inPlace : Int) (r : Relocation) : Int :=
  match r.addend with
  | .inPlace     => inPlace
  | .given value => value

-- The place that a relocation of a section refers to: the address of the symbol and the addend, modulo
-- 2^64.
def RefersTo (image : Image) (contents : Bytes) (r : Relocation) (t : Target) : Prop :=
  ∃ index symbol, r.symbol? = some index ∧ image.symbolTable[index]? = some symbol ∧
    symbol.inSection = some t.number ∧
    t.address =
      ((symbol.address + addendOf (immediateAt image contents r.offset) r) % Bytes.limit 8).toNat

theorem refersTo_of_target {sectionName : String} {contents : Bytes} {r : Relocation} {t : Target}
    (h : target image sectionName r (immediateAt image contents r.offset) = .ok t) :
    RefersTo image contents r t := by
  unfold target at h
  split at h
  case h_1 => cases h
  case h_2 index hi =>
    split at h
    case h_1 => cases h
    case h_2 address number hs =>
      obtain ⟨symbol, hsymbol, hs⟩ := Option.bind_eq_some_iff.mp hs
      obtain ⟨_, hn, he⟩ := Option.map_eq_some_iff.mp hs
      cases he
      cases h
      exact ⟨index, symbol, hi, hsymbol, hn, rfl⟩

-- A function of a section, as a part of it.
def part (image : Image) (number : Nat) (contents : Bytes) (f : Symbol) : Range :=
  rangeOf (functionsIn image number) contents.length f

-- The octets of a part.
def octetsOf (contents : Bytes) (range : Range) : Bytes :=
  (contents.drop range.start).take range.length

-- Two parts that share neither their beginning nor any octet.
def Apart (range range' : Range) : Prop :=
  range.start ≠ range'.start ∧ (range.stop ≤ range'.start ∨ range'.stop ≤ range.start)

instance (range range' : Range) : Decidable (Apart range range') :=
  inferInstanceAs (Decidable (_ ∧ _))

theorem Apart.symm {range range' : Range} (h : Apart range range') : Apart range' range :=
  ⟨h.left.symm, h.right.symm⟩

-- A relocation changes instruction `i` of a part.
def Hits (range : Range) (i : Nat) (r : Relocation) : Prop :=
  range.Contains r.offset ∧ (r.offset - range.start) / Instruction.size = i

namespace ProgramSection

variable {s : ProgramSection} {mapsNumber : Option Nat} {records : List MapRecord}

theorem codeIn_eq_ok {r : Range} {code : Bytes} :
    s.codeIn r = .ok code ↔ r.length ≠ 0 ∧ r.length % Instruction.size = 0 ∧
      r.stop ≤ s.contents.length ∧ code = (s.contents.drop r.start).take r.length := by
  unfold codeIn
  split <;> simp <;> grind

theorem length_of_codeIn {r : Range} {code : Bytes} (h : s.codeIn r = .ok code) :
    code.length = r.length := by
  obtain ⟨h0, _, hs, hc⟩ := codeIn_eq_ok.mp h
  simp only [Range.length] at *
  simp [hc]
  omega

-- Each part of the section is one program.
theorem programs_forall₂ {ds : List ProgramDefinition}
    (h : s.programs image mapsNumber records = .ok ds) : ∃ ranges loads,
    s.programRanges image = .ok ranges ∧
    s.relocations.mapM (s.loadOf image mapsNumber records ranges) = .ok loads ∧
    List.Forall₂ (fun (range, position) d => s.codeIn range = .ok d.code ∧
      d = ⟨range.name, s.kind, s.name, s.license, d.code, loadsAt loads position⟩)
      ranges.zipIdx ds := by
  simp only [programs, bind_eq_ok] at h
  obtain ⟨ranges, hr, codes, hc, loads, hl, he⟩ := h
  cases he
  refine ⟨ranges, loads, hr, hl, ?_⟩
  obtain ⟨hlen, hget⟩ := List.forall₂_iff_get.mp (mapM_eq_ok.mp hc)
  refine List.forall₂_iff_get.mpr ⟨by simp [hlen], fun i h₁ h₂ => ?_⟩
  have hi : i < ranges.length := by simpa using h₁
  have hc := hget i hi (hlen ▸ hi)
  simpa using hc

theorem of_loadOf {ranges : List Range} {r : Relocation} {position : Nat} {load : MapLoad}
    (h : s.loadOf image mapsNumber records ranges r = .ok (position, load)) :
    ∃ range t record, ranges[position]? = some range ∧ range.Contains r.offset ∧
      RefersTo image s.contents r t ∧ some t.number = mapsNumber ∧
      record ∈ records ∧ record.offset = t.address ∧
      load = ⟨(r.offset - range.start) / Instruction.size, record.definition.name⟩ := by
  unfold loadOf at h
  dsimp only at h
  split at h
  case h_1 => cases h
  case h_2 range position' hf =>
    have hc : range.Contains r.offset := by simpa using List.find?_some hf
    have hm := List.mem_zipIdx_iff_getElem?.mp (List.mem_of_find?_eq_some hf)
    obtain ⟨t, ht, h⟩ := bind_eq_ok.mp h
    split at h
    case isTrue => cases h
    case isFalse hn =>
      split at h
      case h_1 => cases h
      case h_2 record hr =>
        cases h
        exact ⟨range, t, record, hm, hc, refersTo_of_target ht, not_not.mp hn,
          List.mem_of_find?_eq_some hr, by simpa using List.find?_some hr, rfl⟩

-- The part of a load is the first that has the offset.
theorem position_of_loadOf {ranges : List Range} {r : Relocation} {position : Nat} {load : MapLoad}
    (h : s.loadOf image mapsNumber records ranges r = .ok (position, load)) :
    ranges.findIdx? (·.Contains r.offset) = some position := by
  unfold loadOf at h
  dsimp only at h
  split at h
  case h_1 => cases h
  case h_2 range position' hf =>
    rw [List.findIdx?_eq_fst_find?_zipIdx, hf]
    obtain ⟨_, _, h⟩ := bind_eq_ok.mp h
    split at h
    case isTrue => cases h
    case isFalse =>
      split at h <;> cases h
      case h_2 => rfl

theorem mem_loadsAt {loads : List (Nat × MapLoad)} {position : Nat} {load : MapLoad} :
    load ∈ loadsAt loads position ↔ (position, load) ∈ loads := by
  rw [loadsAt, (List.mergeSort_perm ..).mem_iff, List.mem_filterMap]
  grind

theorem loadsAt_pairwise (loads : List (Nat × MapLoad)) (position : Nat) :
    (loadsAt loads position).Pairwise (·.index ≤ ·.index) :=
  pairwise_mergeSort_key MapLoad.index _

-- The loads of one program come from different relocations.
theorem loadsAt_pairwise_ne {relocations : List Relocation} {loads : List (Nat × MapLoad)}
    {position : Nat} {range : Range}
    (hl : List.Forall₂ (fun r l => l.1 = position → Hits range l.2.index r) relocations loads)
    (hd : relocations.Pairwise fun r r' => ∀ i, Hits range i r → ¬Hits range i r') :
    (loadsAt loads position).Pairwise (·.index ≠ ·.index) := by
  refine ((List.mergeSort_perm ..).pairwise_iff Ne.symm).mpr ?_
  refine List.pairwise_filterMap.mpr <| pairwise_of_forall₂ hl hd ?_
  rintro r ⟨_, _⟩ r' ⟨_, _⟩ h h' hne load hload load' hload'
  obtain ⟨he, hload⟩ := Option.ite_none_right_eq_some.mp hload
  obtain ⟨he', hload'⟩ := Option.ite_none_right_eq_some.mp hload'
  cases hload
  cases hload'
  exact fun heq => hne _ (h he) (heq ▸ h' he')

theorem programRanges_perm {ranges : List Range}
    (ha : ((functionsIn image s.number).map (part image s.number s.contents)).Pairwise Apart)
    (hn : functionsIn image s.number ≠ []) (h : s.programRanges image = .ok ranges) :
    ranges.Perm ((functionsIn image s.number).map (part image s.number s.contents)) := by
  have hd : (functionsIn image s.number).Pairwise (·.address ≠ ·.address) :=
    (List.pairwise_map.mp ha).imp fun h => h.left
  obtain ⟨rs, hrs, h⟩ := bind_eq_ok.mp h
  have hp := ranges_perm hd hrs
  split at h
  case h_1 => exact absurd (List.map_eq_nil_iff.mp hp.nil_eq.symm) hn
  case h_2 =>
    cases h
    exact hp

-- What reading the section makes of a function: a program with the code of the function, and the
-- loads that the relocations inside it stand for.
structure ReadAs (image : Image) (s : ProgramSection) (mapsNumber : Option Nat)
    (records : List MapRecord) (range : Range) (d : ProgramDefinition) : Prop where
  name     : d.name = range.name
  code     : d.code = octetsOf s.contents range
  length   : d.code.length = range.length
  distinct : d.loads.Pairwise (·.index ≠ ·.index)
  load r i : r ∈ s.relocations → Hits range i r → ∃ t, ∃ record ∈ records,
               RefersTo image s.contents r t ∧ some t.number = mapsNumber ∧
               record.offset = t.address ∧ ⟨i, record.definition.name⟩ ∈ d.loads
  origin l : l ∈ d.loads → ∃ r ∈ s.relocations, Hits range l.index r

section

variable {ranges : List Range} {range : Range} {position : Nat}

-- Only one of the parts has the octet at an offset.
theorem position_unique {range' : Range} {position' offset : Nat} (ha : ranges.Pairwise Apart)
    (hg : ranges[position]? = some range) (hg' : ranges[position']? = some range')
    (hc : range.Contains offset) (hc' : range'.Contains offset) : position = position' := by
  by_contra hne
  have hap := pairwise_getElem? Apart.symm ha hg hg' hne
  simp only [Apart, Range.Contains] at hap hc hc'
  omega

theorem hits_of_loadOf {r : Relocation} {l : MapLoad} (hg : ranges[position]? = some range)
    (h : s.loadOf image mapsNumber records ranges r = .ok (position, l)) : Hits range l.index r := by
  obtain ⟨range', _, _, hg', hc, _, _, _, _, hl⟩ := of_loadOf h
  cases hg.symm.trans hg'
  exact ⟨hc, by rw [hl]⟩

-- A relocation that hits a part is the origin of a load there.
theorem mem_loadsAt_of_hits {loads : List (Nat × MapLoad)} {r : Relocation} {i : Nat}
    (ha : ranges.Pairwise Apart) (hg : ranges[position]? = some range)
    (hl : List.Forall₂ (fun r l => s.loadOf image mapsNumber records ranges r = .ok l) s.relocations
      loads)
    (hr : r ∈ s.relocations) (hi : Hits range i r) : ∃ t, ∃ record ∈ records,
      RefersTo image s.contents r t ∧ some t.number = mapsNumber ∧ record.offset = t.address ∧
      ⟨i, record.definition.name⟩ ∈ loadsAt loads position := by
  obtain ⟨⟨position', l⟩, hm, hload⟩ := exists_of_mem_left hl hr
  obtain ⟨range', t, record, hg', hc, ht, hn, hrecord, haddress, hl⟩ := of_loadOf hload
  cases position_unique ha hg hg' hi.left hc
  cases hg.symm.trans hg'
  refine ⟨t, record, hrecord, ht, hn, haddress, mem_loadsAt.mpr ?_⟩
  rw [← hi.right, ← hl]
  exact hm

end

theorem exists_readAs {ds : List ProgramDefinition} {f : Symbol}
    (h : s.programs image mapsNumber records = .ok ds)
    (ha : ((functionsIn image s.number).map (part image s.number s.contents)).Pairwise Apart)
    (hf : f ∈ functionsIn image s.number)
    (hone : s.relocations.Pairwise fun r r' => ∀ i, Hits (part image s.number s.contents f) i r →
      ¬Hits (part image s.number s.contents f) i r') :
    ∃ d ∈ ds, ReadAs image s mapsNumber records (part image s.number s.contents f) d := by
  generalize hrange : part image s.number s.contents f = range at hone ⊢
  obtain ⟨ranges, loads, hr, hl, hds⟩ := programs_forall₂ h
  have hl := mapM_eq_ok.mp hl
  -- The ranges are the functions in the order of their addresses. So `f` has a position, and the
  -- program there is the one to look at.
  have hp := programRanges_perm ha (List.ne_nil_of_mem hf) hr
  have ha : ranges.Pairwise Apart := (hp.pairwise_iff Apart.symm).mpr ha
  have hrange : range ∈ ranges := hp.mem_iff.mpr <| hrange ▸ List.mem_map_of_mem hf
  obtain ⟨position, hg⟩ := List.mem_iff_getElem?.mp hrange
  have hm : (range, position) ∈ ranges.zipIdx := List.mem_zipIdx_iff_getElem?.mpr hg
  obtain ⟨d, hd, hc, he⟩ := exists_of_mem_left hds hm
  have hloads : d.loads = loadsAt loads position := by rw [he]
  refine ⟨d, hd, ?_⟩
  exact {
    name     := by rw [he]
    code     := (codeIn_eq_ok.mp hc).right.right.right
    length   := length_of_codeIn hc
    distinct := by
      rw [hloads]
      refine loadsAt_pairwise_ne (hl.imp fun r l h hp => ?_) hone
      obtain ⟨position', l⟩ := l
      cases hp
      exact hits_of_loadOf hg h
    load r i hr hi := hloads ▸ mem_loadsAt_of_hits ha hg hl hr hi
    origin l hm := by
      rw [hloads, mem_loadsAt] at hm
      obtain ⟨r, hr, hload⟩ := exists_of_mem_right hl hm
      exact ⟨r, hr, hits_of_loadOf hg hload⟩ }

end ProgramSection

end EbpfManager.Object
