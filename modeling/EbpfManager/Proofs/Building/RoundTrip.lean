import EbpfManager.Proofs.Building.Drafts
import EbpfManager.Proofs.Building.Programs

namespace EbpfManager.Object.Description

open Elf

variable {d : Description} {image : Image} {place : Nat → Nat}

section Reading

-- What reading a list comes to, when all that is read is put together.
def Comes {ε α β : Type} (f : α → Except ε (List β)) (as : List α) (bs : List β) : Prop :=
  ∃ rs, as.mapM f = .ok rs ∧ rs.flatten = bs

namespace Comes

variable {ε α β : Type} {f : α → Except ε (List β)} {as as' : List α} {bs bs' : List β}

theorem append (h : Comes f as bs) (h' : Comes f as' bs') : Comes f (as ++ as') (bs ++ bs') := by
  obtain ⟨rs, hr, rfl⟩ := h
  obtain ⟨rs', hr', rfl⟩ := h'
  refine ⟨rs ++ rs', ?_, List.flatten_append⟩
  exact mapM_eq_ok.mpr (List.rel_append (mapM_eq_ok.mp hr) (mapM_eq_ok.mp hr'))

theorem flatMap {g : α → List β} (h : ∀ a ∈ as, f a = .ok (g a)) : Comes f as (as.flatMap g) := by
  refine ⟨as.map g, mapM_eq_ok.mpr ?_, rfl⟩
  rw [List.forall₂_map_right_iff, List.forall₂_same]
  exact h

-- Whatever else there is may be left out if nothing is read of it.
theorem of_filter {p : α → Bool} (h : Comes f (as.filter p) bs) (hn : ∀ a ∈ as, p a = false → f a = .ok []) :
    Comes f as bs := by
  induction as generalizing bs
  case nil => exact h
  case cons a as hi =>
    have hi {bs : List β} (h : Comes f (as.filter p) bs) : Comes f as bs :=
      hi h fun a ha => hn a (List.mem_cons_of_mem _ ha)
    cases hp : p a
    case false =>
      rw [List.filter_cons_of_neg (by simp [hp])] at h
      obtain ⟨rs, hr, rfl⟩ := hi h
      exact ⟨[] :: rs, mapM_eq_ok.mpr (.cons (hn a List.mem_cons_self hp) (mapM_eq_ok.mp hr)), rfl⟩
    case true =>
      rw [List.filter_cons_of_pos hp] at h
      obtain ⟨_, hm, rfl⟩ := h
      obtain ⟨r, rs, hf, hr, rfl⟩ := List.forall₂_cons_left_iff.mp (mapM_eq_ok.mp hm)
      obtain ⟨rs', hr', he⟩ := hi ⟨rs, mapM_eq_ok.mpr hr, rfl⟩
      exact ⟨r :: rs', mapM_eq_ok.mpr (.cons hf (mapM_eq_ok.mp hr')), congrArg (r ++ ·) he⟩

end Comes

end Reading

-- Only the sections of programs hold code.
theorem isCode_of_mem_leading {s : DraftSection} (h : s ∈ d.leadingSections) : s.read.isCode = false := by
  rcases List.mem_append.mp h with h | h
  case inl => rcases List.mem_append.mp h with h | h <;> obtain ⟨_, _, rfl⟩ := List.mem_map.mp h <;> rfl
  case inr =>
    split at h
    case isTrue => cases h
    case isFalse =>
      rw [List.mem_singleton.mp h]
      rfl

theorem programsIn_codeSection (hd : d.WellFormed) (b : image.Bounded) (h : d.draft.Shows place image)
    {sectionName : String} (hn : sectionName ∈ d.sectionNames) :
    programsIn image (d.license.getD "GPL") (if d.maps.isEmpty then none else some (place d.mapsNumber))
      (d.mapsLaid.map d.mapRecord) (d.codeSection sectionName).read (place (d.programsNumber sectionName)) =
        .ok ((d.programsOf sectionName).map d.programDefinition) := by
  obtain ⟨p, hp, rfl⟩ := List.mem_map.mp (List.mem_eraseDups.mp hn)
  obtain ⟨kind, hk⟩ := Option.ne_none_iff_exists'.mp (hd.sectionName p hp).right
  have hname : ((d.codeSection p.sectionName).read.name.bind Text.decode?) = some p.sectionName :=
    Text.decode?_encode _
  have htext : p.sectionName ≠ ".text" := codeName_ne hd hp (by decide)
  have hcode : (d.codeSection p.sectionName).read.isCode = true := rfl
  unfold programsIn
  simp only [hcode, Bool.not_true, Bool.false_eq_true, if_false, hname, if_neg htext, hk]
  exact bind_eq_ok.mpr ⟨_, rfl, programs_eq hd b h hn hk⟩

def readPrograms (d : Description) (place : Nat → Nat) (image : Image) (s : Section × Nat) :
    Except FormatError (List ProgramDefinition) :=
  programsIn image (d.license.getD "GPL") (if d.maps.isEmpty then none else some (place d.mapsNumber))
    (d.mapsLaid.map d.mapRecord) s.1 s.2

theorem readPrograms_of_not_code {s : Section × Nat} (h : s.1.isCode = false) :
    d.readPrograms place image s = .ok [] := by
  rw [readPrograms, programsIn, h]
  rfl

theorem comes_of_not_code {sections : List DraftSection} (h : ∀ s ∈ sections, s.read.isCode = false) (k : Nat) :
    Comes (d.readPrograms place image) (sectionsRead place sections k) [] := by
  have hn : ∀ s ∈ sectionsRead place sections k, d.readPrograms place image s = .ok [] := by
    refine List.forall_mem_map.mpr fun s hs => readPrograms_of_not_code ?_
    exact h s.1 (List.fst_mem_of_mem_zipIdx hs)
  have hc := Comes.flatMap hn
  rwa [List.flatMap_eq_nil_iff.mpr fun _ _ => rfl] at hc

-- The sections of programs are numbered in the order of their names.
theorem comes_codeSections (hd : d.WellFormed) (b : image.Bounded) (h : d.draft.Shows place image) :
    Comes (d.readPrograms place image)
      (sectionsRead place (d.sectionNames.map d.codeSection) (d.leadingNames.length + 1)) d.contents.programs := by
  have hz := List.zipIdx_map_fst (d.leadingNames.length + 1) d.sectionNames
  have hs : sectionsRead place (d.sectionNames.map d.codeSection) (d.leadingNames.length + 1) =
      d.sectionNames.map fun sectionName =>
        ((d.codeSection sectionName).read, place (d.programsNumber sectionName)) := by
    rw [sectionsRead, List.zipIdx_map, List.map_map, ← hz, List.map_map, hz]
    refine List.map_congr_left fun s hm => ?_
    obtain ⟨sectionName, number⟩ := s
    obtain ⟨hle, hg⟩ := List.mk_mem_zipIdx_iff_le_and_getElem?_sub.mp hm
    obtain ⟨hlt, hg⟩ := List.getElem?_eq_some_iff.mp hg
    have hi : d.sectionNames.idxOf sectionName = number - (d.leadingNames.length + 1) := by
      rw [← hg]
      exact d.sectionNames_nodup.idxOf_getElem _ hlt
    have hn : d.programsNumber sectionName = number := by
      rw [programsNumber, hi]
      omega
    simp only [Prod.map, Function.comp, id, hn]
  rw [hs]
  obtain ⟨rs, hrs, hf⟩ := Comes.flatMap (f := fun sectionName =>
    d.readPrograms place image ((d.codeSection sectionName).read, place (d.programsNumber sectionName)))
    fun sectionName hn => programsIn_codeSection hd b h hn
  refine ⟨rs, mapM_eq_ok.mpr ?_, hf⟩
  rw [List.forall₂_map_left_iff]
  exact mapM_eq_ok.mp hrs

theorem programs_found (hd : d.WellFormed) (b : image.Bounded) (h : d.draft.Shows place image) :
    Comes (d.readPrograms place image) (image.sections.zipIdx.drop 1) d.contents.programs := by
  have hleading : ∀ s ∈ d.leadingSections, s.read.isCode = false := fun s hs => isCode_of_mem_leading hs
  have htext : ∀ s ∈ [d.textSection], s.read.isCode = false := List.forall_mem_singleton.mpr rfl
  have hl : 1 + d.leadingSections.length = d.leadingNames.length + 1 := by
    rw [length_leadingSections, Nat.add_comm]
  have hc : Comes (d.readPrograms place image) (sectionsRead place d.draft.sections 1) d.contents.programs := by
    rw [sections_eq, sectionsRead_append, sectionsRead_append, List.append_assoc, hl]
    simpa only [List.nil_append, List.append_nil] using (comes_of_not_code hleading 1).append <|
      (comes_codeSections hd b h).append <| comes_of_not_code htext _
  refine .of_filter (p := (· ∈ sectionsRead place d.draft.sections 1))
    (h.filter_sections.symm ▸ hc) fun s hs hp => ?_
  obtain ⟨_, hs⟩ := mem_drop_zipIdx.mp hs
  rcases h.cases_section hs with ⟨position, t, ht, hn, he⟩ | ht
  case inl => exact absurd (mem_sectionsRead ht place) (hn ▸ he ▸ of_decide_eq_false hp)
  case inr => exact readPrograms_of_not_code ht.isCode

-- That the writer lays out the file in its own way makes no difference.
theorem parse_build {write : Draft → Bytes} (hd : d.WellFormed) (hw : d.draft.Stored (write d.draft)) :
    ObjectFile.parse (d.build write) = .ok d.contents := by
  obtain ⟨place, image, hi, h⟩ := hw.shown
  have b := Image.bounded hi hw.size
  obtain ⟨programs, hp, hf⟩ := programs_found hd b h
  unfold ObjectFile.parse
  rw [build, hi]
  refine bind_eq_ok.mpr ⟨_, license_found h hd, bind_eq_ok.mpr ⟨_, kernelVersion_found h hd, ?_⟩⟩
  refine bind_eq_ok.mpr ⟨_, maps_found hd b h, bind_eq_ok.mpr ⟨_, hp, ?_⟩⟩
  have hm : (d.mapsLaid.map d.mapRecord).map MapRecord.definition = d.maps.map d.mapDefinition := by
    have hf : d.mapsLaid.map Prod.fst = d.maps := map_fst_laid 4 (MapSpec.record d.recordSize) d.maps
    rw [List.map_map, ← hf, List.map_map]
    rfl
  rw [hm, hf]
  rfl

theorem parse_build_sample : sample.WellFormed ∧ sample.draft.Stored (Draft.write sample.draft) ∧
    ObjectFile.parse (sample.build Draft.write) = .ok sample.contents := by
  have hd : sample.WellFormed := by decide +kernel
  have hw : sample.draft.Stored (Draft.write sample.draft) := stored_write hd (by decide +kernel)
  exact ⟨hd, hw, parse_build hd hw⟩

end EbpfManager.Object.Description
