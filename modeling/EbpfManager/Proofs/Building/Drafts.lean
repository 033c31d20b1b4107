import EbpfManager.Proofs.Building.Descriptions
import EbpfManager.Proofs.Elf.Images

namespace EbpfManager.Object.Description

open Elf

variable {d : Description} (hd : d.WellFormed) (hr : d.draft.HasRoom)

include hd hr

-- The relocations are inside the sections, and refer to symbols.
theorem relocation_sound {s : DraftSection} {r : Nat × Nat} (hs : s ∈ d.draft.sections)
    (h : r ∈ s.relocations) : r.1 < Bytes.limit 8 ∧ 0 < r.2 ∧ r.2 ≤ d.symbols.length := by
  have hl := hr.contents_lt hs
  have hsymbols := length_symbols d
  have hmaps {position : Nat} {m : MapSpec} (h : d.maps[position]? = some m) : position < d.symbols.length :=
    (List.getElem?_eq_some_iff.mp (symbols_defined (definedSymbols_map h))).fst
  rcases cases_of_mem_sections hs with h' | ⟨rfl, _⟩ | ⟨p, _, rfl⟩ | rfl
  case inl =>
    have hn : s.relocations = [] := by
      rcases List.mem_append.mp h' with h' | h' <;> obtain ⟨_, _, rfl⟩ := List.mem_map.mp h' <;> rfl
    cases hn ▸ h
  case inr.inl =>
    obtain ⟨hf, position, m, hm, h⟩ := cases_of_mem_mapRelocations h
    have hle := record_le hd hm
    have h40 : fullRecordSize ≤ d.recordSize := of_decide_eq_true hf
    simp only [fullRecordSize] at h40
    rcases h with ⟨name, hn, rfl⟩ | ⟨hp, rfl⟩
    case inl =>
      obtain ⟨position', m', hm', _, he⟩ := exists_map hd (hd.inner m (List.mem_of_getElem? hm) name hn)
      have hlt := hmaps hm'
      simp only [he, innerField]
      omega
    case inr =>
      have hlt := (List.getElem?_eq_some_iff.mp (pinned_findIdx hf hm hp)).fst
      simp only [pinField]
      omega
  case inr.inr.inl =>
    obtain ⟨p, start, hp, l, hl', rfl⟩ := exists_of_mem_codeRelocations h
    obtain ⟨hname, himm⟩ := hd.load p (mem_of_mem_programsLaid hp).left l hl'
    obtain ⟨position', m', hm', _, he⟩ := exists_map hd hname
    have hlt := hmaps hm'
    have hle := code_le hp
    have hin := (Bytes.slice?_eq_some.mp himm).left
    simp only [he]
    omega
  case inr.inr.inr => cases h

theorem symbol_sound {s : DraftSymbol} (h : s ∈ d.symbols) : '\x00' ∉ s.name.toList ∧
    s.number ≤ d.draft.sections.length ∧ s.value < Bytes.limit 8 ∧ s.size < Bytes.limit 8 := by
  rw [length_sections]
  simp only [symbols, definedSymbols, undefinedNames_eq_nil hd, List.map_nil, List.append_nil,
    List.mem_append] at h
  rcases h with (h | h) | h
  case inl.inl =>
    obtain ⟨⟨m, position⟩, hm, rfl⟩ := List.mem_map.mp h
    have hm := List.mk_mem_zipIdx_iff_getElem?.mp hm
    have hle := record_le hd hm
    have hlt := hr.contents_lt (mapsSection_mem (List.mem_of_getElem? hm))
    refine ⟨(hd.mapName m (List.mem_of_getElem? hm)).right, ?_, ?_, ?_⟩
    case refine_1 => simp only [mapsNumber]; omega
    all_goals simp only; omega
  case inl.inr =>
    obtain ⟨⟨p, position⟩, hp, h⟩ := List.mem_filterMap.mp h
    obtain ⟨name, hn, rfl⟩ := Option.map_eq_some_iff.mp h
    have hp := List.mk_mem_zipIdx_iff_getElem?.mp hp
    have hm := List.mem_of_getElem? hp
    have hle := code_le (mem_programsLaid hp)
    have hlt := hr.contents_lt (codeSection_mem hm)
    have hi : d.sectionNames.idxOf p.sectionName < d.sectionNames.length :=
      List.idxOf_lt_length_of_mem (List.mem_eraseDups.mpr (List.mem_map_of_mem hm))
    obtain ⟨name', hn', hproper⟩ := hd.programName p hm
    cases hn.symm.trans hn'
    refine ⟨hproper.right, ?_, ?_, ?_⟩
    case refine_1 => simp only [programsNumber]; omega
    all_goals simp only; omega
  case inr =>
    obtain ⟨⟨⟨m, position⟩, k⟩, hp, rfl⟩ := List.mem_map.mp h
    have hp := List.mk_mem_zipIdx_iff_getElem?.mp hp
    obtain ⟨_, hm, _⟩ := of_mem_pinned (List.mem_of_getElem? hp)
    have hname := (hd.mapName m (List.mem_of_getElem? hm)).right
    have hle := text_le hp
    have hlt := hr.contents_lt d.textSection_mem
    refine ⟨?_, ?_, ?_, ?_⟩
    case refine_1 => simpa using hname
    case refine_2 => simp only [textsNumber]; omega
    all_goals simp only; omega

theorem draft_sound : d.draft.Sound where
  name s hs := by
    rcases cases_of_mem_sections hs with h | ⟨rfl, _⟩ | ⟨p, hp, rfl⟩ | rfl
    case inl =>
      rcases List.mem_append.mp h with h | h <;> obtain ⟨_, _, rfl⟩ := List.mem_map.mp h <;>
        simp only <;> decide
    case inr.inl     => simp only [mapsSection]; decide
    case inr.inr.inl => exact (hd.sectionName p hp).left
    case inr.inr.inr => simp only [textSection]; decide
  offset s hs r h   := (relocation_sound hd hr hs h).left
  symbol s hs r h   := (relocation_sound hd hr hs h).right
  symbolName s h    := (symbol_sound hd hr h).left
  number s h        := (symbol_sound hd hr h).right.left
  value s h         := (symbol_sound hd hr h).right.right.left
  size s h          := (symbol_sound hd hr h).right.right.right

theorem stored_write : d.draft.Stored d.draft.write :=
  Draft.stored_write (draft_sound hd hr) hr

end EbpfManager.Object.Description
