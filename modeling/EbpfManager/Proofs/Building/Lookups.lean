import EbpfManager.Proofs.Building.Descriptions
import EbpfManager.Proofs.Elf.Shown

namespace EbpfManager.Object

open Elf
open Text (Proper)

-- A section that is looked for by its name is not one of those that a writer adds.
theorem name_ne_of_isTable {s : Section} {name : String} (hs : IsTable s) (h0 : name ≠ "")
    (hdot : name.toList.head? ≠ some '.') : s.name ≠ some (Text.encode name) :=
  fun he => (hs.name he).elim h0 hdot

section Shown

variable {image : Image} {d : Draft} {place : Nat → Nat} {name : String} {position : Nat}
  (h : d.Shows place image)

include h

-- The place that a symbol stands for, where nothing is added.
theorem target_shown {s : DraftSymbol} (hs : d.symbols[position]? = some s) (h0 : s.number ≠ 0)
    (hv : s.value < Bytes.limit 8) (sectionName : String) (offset : Nat) :
    target image sectionName (readRelocation (offset, position + 1)) 0 = .ok ⟨place s.number, s.value⟩ := by
  have hi : (s.read place).inSection = some (place s.number) := if_neg h0
  have ha : ((((s.read place).address : Int) + 0) % (Bytes.limit 8 : Int)).toNat = s.value := by
    have hv : s.value % Bytes.limit 8 = s.value := Nat.mod_eq_of_lt hv
    rw [Int.add_zero, DraftSymbol.read, ← Int.natCast_emod, hv, Int.toNat_natCast]
  unfold target readRelocation
  simp only [h.symbol hs, Option.bind_some, hi, Option.map_some, ha]

theorem sectionNamed?_shown {front rest : List DraftSection} {s : DraftSection}
    (hs : d.sections = front ++ s :: rest) (hf : ∀ t ∈ front, t.name ≠ s.name) (h0 : s.name ≠ "")
    (hdot : s.name.toList.head? ≠ some '.') :
    image.sectionNamed? s.name = some (s.read, place (front.length + 1)) := by
  have hp : d.sections[front.length]? = some s := by simp [hs]
  have hi := h.own hp
  have hl : (image.sections.take (place (front.length + 1))).length = place (front.length + 1) :=
    List.length_take_of_le (Nat.le_of_lt (List.getElem?_eq_some_iff.mp hi).fst)
  have hn : ∀ t ∈ image.sections.take (place (front.length + 1)),
      decide (t.name = some (Text.encode s.name)) = false := by
    intro t ht
    obtain ⟨number, ht⟩ := List.mem_iff_getElem?.mp ht
    have hlt := (List.getElem?_eq_some_iff.mp ht).fst
    rw [hl] at hlt
    rw [List.getElem?_take_of_lt hlt] at ht
    refine decide_eq_false ?_
    rcases h.cases_section ht with ⟨position, t, hp, rfl, rfl⟩ | ht
    case inl =>
      have hlt := Nat.lt_of_succ_lt_succ (h.ascending.lt_iff_lt.mp hlt)
      rw [hs, List.getElem?_append_left hlt] at hp
      exact fun he => hf t (List.mem_of_getElem? hp) (Text.encode_injective (Option.some_inj.mp he))
    case inr => exact name_ne_of_isTable ht h0 hdot
  have hname : decide (s.read.name = some (Text.encode s.name)) = true := decide_eq_true rfl
  have hi := eq_take_append_cons hi
  generalize image.sections.take (place (front.length + 1)) = before at hi hl hn
  rw [Image.sectionNamed?, hi, ← hl]
  exact find?_zipIdx_append hn hname

theorem sectionNamed?_not_shown (hs : ∀ t ∈ d.sections, t.name ≠ name) (h0 : name ≠ "")
    (hdot : name.toList.head? ≠ some '.') : image.sectionNamed? name = none := by
  refine List.find?_eq_none.mpr fun t ht => ?_
  have hn : t.1.name ≠ some (Text.encode name) := by
    rcases h.cases_section (List.mem_zipIdx_iff_getElem?.mp ht) with ⟨_, t', hp, _, he⟩ | ht
    case inl =>
      rw [he]
      exact fun hn => hs t' (List.mem_of_getElem? hp) (Text.encode_injective (Option.some_inj.mp hn))
    case inr => exact name_ne_of_isTable ht h0 hdot
  simpa using hn

end Shown

namespace Description

variable {d : Description} {image : Image} {place : Nat → Nat} (h : d.draft.Shows place image) (hd : d.WellFormed)

-- The names that no section of programs has.
theorem codeName_ne (hd : d.WellFormed) {p : ProgramSpec} (hp : p ∈ d.programs) {name : String}
    (hn : ProgramKind.ofSectionName? name = none) : p.sectionName ≠ name :=
  fun he => (hd.sectionName p hp).right (he ▸ hn)

theorem ofTerminated?_encode {text : String} (hp : Proper text) (rest : Bytes) :
    Text.ofTerminated? (Text.encode text ++ 0 :: rest) = some text := by
  rw [Text.ofTerminated?, Bytes.terminated?_of_not_mem (Text.zero_not_mem_encode hp.right), Option.bind_some,
    Text.decode?_encode]

theorem ofNat_word (n : UInt32) : UInt32.ofNat (ByteOrder.little.toNat (Bytes.ofNat 4 n.toNat)) = n := by
  have hn : n.toNat % Bytes.limit 4 = n.toNat := Nat.mod_eq_of_lt n.toNat_lt
  rw [ByteOrder.toNat, Bytes.toNat_ofNat, hn, UInt32.ofNat_toNat]

include h hd

theorem not_found {name : String} (hi : ∀ s ∈ d.infoSections, s.name ≠ name)
    (hm : name = "maps" → d.maps = []) (hn : ProgramKind.ofSectionName? name = none) (h0 : name ≠ "")
    (hdot : name.toList.head? ≠ some '.') :
    image.sectionNamed? name = none := by
  refine sectionNamed?_not_shown h (fun s hs he => ?_) h0 hdot
  rcases cases_of_mem_sections hs with hs | ⟨rfl, hne⟩ | ⟨p, hp, rfl⟩ | rfl
  case inl         => exact hi s hs he
  case inr.inl     => exact hne (hm he.symm)
  case inr.inr.inl => exact codeName_ne hd hp hn he
  case inr.inr.inr => exact hdot (he ▸ by simp only [textSection]; decide)

theorem license_found : Object.license image = .ok (d.license.getD "GPL") := by
  unfold Object.license
  cases hl : d.license
  case none =>
    have hi : ∀ s ∈ d.infoSections, s.name ≠ "license" := by simp [infoSections, hl]
    rw [not_found h hd hi (fun he => absurd he (by decide)) (by decide) (by decide) (by decide)]
    rfl
  case some text =>
    let s : DraftSection := ⟨"license", .data, Text.encode text ++ [0], []⟩
    have hs : d.draft.sections = [] ++ s :: d.draft.sections.tail := by
      simp [sections_eq, leadingSections, infoSections, hl, s]
    have hn : image.sectionNamed? "license" = some (s.read, place 1) :=
      sectionNamed?_shown h hs (fun t ht => absurd ht List.not_mem_nil) (show "license" ≠ "" by decide)
        (show "license".toList.head? ≠ some '.' by decide)
    have hp := hd.license text hl
    have ht : (some text).filter (· ≠ "") = some text := Option.filter_some_pos (decide_eq_true hp.left)
    rw [hn]
    refine bind_eq_ok.mpr ⟨Text.encode text ++ [0], rfl, ?_⟩
    simp only [readLicense, ofTerminated?_encode hp, ht]
    rfl

theorem kernelVersion_found : kernelVersion image = .ok (d.version.filter (· ≠ anyKernel)) := by
  unfold kernelVersion
  cases hv : d.version
  case none =>
    have hi : ∀ s ∈ d.infoSections, s.name ≠ "version" := by
      cases hl : d.license <;> simp [infoSections, hl, hv]
    rw [not_found h hd hi (fun he => absurd he (by decide)) (by decide) (by decide) (by decide)]
    rfl
  case some version =>
    let front := d.license.toList.map fun license =>
      (⟨"license", .data, Text.encode license ++ [0], []⟩ : DraftSection)
    let s : DraftSection := ⟨"version", .data, Bytes.ofNat 4 version.toNat, []⟩
    have hs : d.draft.sections = front ++ s :: d.draft.sections.drop (front.length + 1) := by
      cases hl : d.license <;> simp [sections_eq, leadingSections, infoSections, hl, hv, s, front]
    have hf : ∀ t ∈ front, t.name ≠ "version" := by simp [front]
    have hn : image.sectionNamed? "version" = some (s.read, place (front.length + 1)) :=
      sectionNamed?_shown h hs hf (show "version" ≠ "" by decide)
        (show "version".toList.head? ≠ some '.' by decide)
    rw [hn]
    refine bind_eq_ok.mpr ⟨Bytes.ofNat 4 version.toNat, rfl, ?_⟩
    simp only [readVersion, Bytes.length_ofNat, if_true, h.order, ofNat_word]
    by_cases he : version = anyKernel <;> simp [Option.filter, he]

end Description

end EbpfManager.Object
