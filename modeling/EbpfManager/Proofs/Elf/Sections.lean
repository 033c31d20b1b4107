import EbpfManager.Proofs.Elf.Entries

namespace EbpfManager.Elf.Draft

variable {d : Draft}

-- Names end at a zero, and there are no symbols but those of the draft.
structure Sound (d : Draft) : Prop where
  name       : ∀ s ∈ d.sections, '\x00' ∉ s.name.toList
  offset     : ∀ s ∈ d.sections, ∀ r ∈ s.relocations, r.1 < Bytes.limit 8
  symbol     : ∀ s ∈ d.sections, ∀ r ∈ s.relocations, 0 < r.2 ∧ r.2 ≤ d.symbols.length
  symbolName : ∀ s ∈ d.symbols, '\x00' ∉ s.name.toList
  number     : ∀ s ∈ d.symbols, s.number ≤ d.sections.length
  value      : ∀ s ∈ d.symbols, s.value < Bytes.limit 8
  size       : ∀ s ∈ d.symbols, s.size < Bytes.limit 8

-- The file is not longer than memory, and the tables of names are not longer than the format can say.
structure HasRoom (d : Draft) : Prop where
  file    : d.write.length < 2 ^ 63
  names   : (nameTable (d.placed.map PlacedSection.name)).length ≤ Bytes.limit 4
  symbols : (nameTable (d.symbols.map DraftSymbol.name)).length ≤ Bytes.limit 4

instance (d : Draft) : Decidable d.HasRoom :=
  decidable_of_iff
    (d.write.length < 2 ^ 63 ∧ (nameTable (d.placed.map PlacedSection.name)).length ≤ Bytes.limit 4 ∧
      (nameTable (d.symbols.map DraftSymbol.name)).length ≤ Bytes.limit 4)
    ⟨fun ⟨file, names, symbols⟩ => ⟨file, names, symbols⟩, fun h => ⟨h.file, h.names, h.symbols⟩⟩

-- A section of the draft, its relocations, and the tables.
def own (s : DraftSection) : PlacedSection :=
  ⟨s.name, typeProgramBits, s.use.flags, 0, 0, s.contents⟩

def relocating (d : Draft) (s : DraftSection) (n : Nat) : PlacedSection :=
  ⟨".rel" ++ s.name, typeRelocations, 0, d.symbolsAt, d.place n, relocationTable s⟩

def indexSection (d : Draft) : PlacedSection :=
  ⟨".symtab_shndx", typeSectionIndices, 0, d.symbolsAt, 0, d.indexTable⟩

def indices (d : Draft) : List PlacedSection :=
  if d.needsIndices then [d.indexSection] else []

def symbolSection (d : Draft) : PlacedSection :=
  ⟨".symtab", typeSymbolTable, 0, d.symbolsAt + d.indices.length + 1, 1, d.symbolTable⟩

def stringSection (d : Draft) : PlacedSection :=
  ⟨".strtab", typeStringTable, 0, 0, 0, nameTable (d.symbols.map DraftSymbol.name)⟩

def nameSection (d : Draft) : PlacedSection :=
  ⟨".shstrtab", typeStringTable, 0, 0, 0, nameTable (d.placed.map PlacedSection.name)⟩

def groups (d : Draft) (sections : List DraftSection) (k : Nat) : List PlacedSection :=
  (sections.zipIdx k).flatMap fun (s, n) => d.group s n

def front (d : Draft) : List PlacedSection :=
  d.groups d.sections 1

def tables (d : Draft) : List PlacedSection :=
  d.symbolSection :: (d.indices ++ [d.stringSection, d.nameSection])

theorem groups_cons (d : Draft) (s : DraftSection) (sections : List DraftSection) (k : Nat) :
    d.groups (s :: sections) k =
      own s :: ((if s.relocations = [] then [] else [d.relocating s k]) ++ d.groups sections (k + 1)) :=
  rfl

theorem placed_eq (d : Draft) : d.placed = d.front ++ d.tables := by
  let before := d.front ++ d.symbolSection :: d.indices ++ [d.stringSection]
  have hp : d.placed = before ++
      [⟨".shstrtab", typeStringTable, 0, 0, 0, nameTable (before.map PlacedSection.name ++ [".shstrtab"])⟩] :=
    rfl
  have hn : d.placed.map PlacedSection.name = before.map PlacedSection.name ++ [".shstrtab"] := by
    rw [hp, List.map_append]
    rfl
  rw [tables, nameSection, hn, hp]
  simp only [before, List.append_assoc, List.cons_append, List.nil_append]

theorem mem_tables {s : PlacedSection} (h : s ∈ d.tables) :
    s = d.symbolSection ∨ s = d.indexSection ∨ s = d.stringSection ∨ s = d.nameSection := by
  rcases List.mem_cons.mp h with rfl | h
  case inl => exact .inl rfl
  case inr =>
    rcases List.mem_append.mp h with h | h
    case inl =>
      unfold indices at h
      split at h
      case isTrue  => exact .inr <| .inl <| List.mem_singleton.mp h
      case isFalse => cases h
    case inr =>
      simp only [List.mem_cons, List.not_mem_nil, or_false] at h
      exact .inr <| .inr h

section Positions

variable {sections : List DraftSection} {s : DraftSection} {t : PlacedSection} {k i position : Nat}

-- How many sections there are before one of the draft.
def start (sections : List DraftSection) (position : Nat) : Nat :=
  position + (sections.take position).countP (·.relocations ≠ [])

theorem place_succ (d : Draft) (position : Nat) : d.place (position + 1) = start d.sections position + 1 := by
  rw [place, start, Nat.add_sub_cancel]
  omega

theorem start_succ (s : DraftSection) (sections : List DraftSection) (position : Nat) :
    start (s :: sections) (position + 1) = start sections position + 1 + if s.relocations = [] then 0 else 1 := by
  by_cases hs : s.relocations = [] <;> simp [start, hs] <;> omega

theorem start_strictMono (sections : List DraftSection) : StrictMono (start sections) := by
  intro i j h
  have hl := (List.take_sublist_take_left (l := sections) (Nat.le_of_lt h)).countP_le (p := (·.relocations ≠ []))
  simp only [start]
  omega

theorem place_strictMono (d : Draft) : StrictMono d.place := by
  intro i j h
  obtain ⟨j, rfl⟩ := Nat.exists_eq_succ_of_ne_zero (Nat.ne_zero_of_lt h)
  rw [Nat.succ_eq_add_one, place_succ]
  cases i
  case zero => exact Nat.succ_pos _
  case succ i =>
    have hl := start_strictMono d.sections (Nat.lt_of_succ_lt_succ h)
    rw [place_succ]
    omega

theorem length_front (d : Draft) : d.front.length + 1 = d.symbolsAt := by
  have hl (sections : List DraftSection) (k : Nat) :
      (d.groups sections k).length = start sections sections.length := by
    induction sections generalizing k
    case nil => rfl
    case cons s sections hi =>
      rw [groups_cons, List.length_cons, List.length_append, hi, List.length_cons, start_succ]
      split <;> simp only [List.length_cons, List.length_nil] <;> omega
  rw [front, hl, symbolsAt, place_succ]

-- Each section is where `start` says, and its relocations are behind it.
theorem getElem?_groups (d : Draft) (h : sections[position]? = some s) (k : Nat) :
    (d.groups sections k)[start sections position]? = some (own s) ∧ (s.relocations ≠ [] →
      (d.groups sections k)[start sections position + 1]? = some (d.relocating s (k + position))) := by
  induction sections generalizing position k
  case nil => cases h
  case cons s' sections hi =>
    rw [groups_cons]
    cases position
    case zero =>
      cases h
      exact ⟨rfl, fun hr => by rw [if_neg hr]; rfl⟩
    case succ position =>
      have hi := hi h (k + 1)
      rw [Nat.add_right_comm, Nat.add_assoc] at hi
      rw [start_succ]
      split <;> exact hi

-- There are no others among the groups.
theorem cases_groups (h : (d.groups sections k)[i]? = some t) :
    ∃ position s, sections[position]? = some s ∧ ((i = start sections position ∧ t = own s) ∨
      (s.relocations ≠ [] ∧ i = start sections position + 1 ∧ t = d.relocating s (k + position))) := by
  induction sections generalizing k i
  case nil => cases h
  case cons s sections hi =>
    rw [groups_cons] at h
    have next {j : Nat} (hj : i = j + 1 + if s.relocations = [] then 0 else 1)
        (h : (d.groups sections (k + 1))[j]? = some t) :
        ∃ position s', (s :: sections)[position]? = some s' ∧
          ((i = start (s :: sections) position ∧ t = own s') ∨
          (s'.relocations ≠ [] ∧ i = start (s :: sections) position + 1 ∧
            t = d.relocating s' (k + position))) := by
      obtain ⟨position, s', hs, hc⟩ := hi h
      refine ⟨position + 1, s', hs, ?_⟩
      rw [start_succ, hj]
      rcases hc with ⟨rfl, ht⟩ | ⟨hr, rfl, ht⟩
      case inl => exact .inl ⟨rfl, ht⟩
      case inr => exact .inr ⟨hr, by omega, by rw [ht, Nat.add_right_comm, Nat.add_assoc]⟩
    split at h
    case isTrue hr =>
      cases i
      case zero   => exact ⟨0, s, rfl, .inl ⟨rfl, (Option.some_inj.mp h).symm⟩⟩
      case succ i => exact next (by rw [if_pos hr]) h
    case isFalse hr =>
      match i with
      | 0     => exact ⟨0, s, rfl, .inl ⟨rfl, (Option.some_inj.mp h).symm⟩⟩
      | 1     => exact ⟨0, s, rfl, .inr ⟨hr, rfl, (Option.some_inj.mp h).symm⟩⟩
      | i + 2 => exact next (by rw [if_neg hr]) h

theorem placed_own (h : d.sections[position]? = some s) : d.placed[start d.sections position]? = some (own s) := by
  obtain ⟨ho, _⟩ := getElem?_groups d h 1
  rwa [placed_eq, front, List.getElem?_append_left (List.getElem?_eq_some_iff.mp ho).fst]

theorem placed_relocating (h : d.sections[position]? = some s) (hr : s.relocations ≠ []) :
    d.placed[start d.sections position + 1]? = some (d.relocating s (position + 1)) := by
  obtain ⟨_, ho⟩ := getElem?_groups d h 1
  have ho := ho hr
  rw [Nat.add_comm 1] at ho
  rwa [placed_eq, front, List.getElem?_append_left (List.getElem?_eq_some_iff.mp ho).fst]

theorem placed_table (d : Draft) (i : Nat) : d.placed[d.front.length + i]? = d.tables[i]? := by
  rw [placed_eq, List.getElem?_append_right (Nat.le_add_right ..), Nat.add_sub_cancel_left]

theorem cases_placed (h : d.placed[i]? = some t) :
    (∃ position s, d.sections[position]? = some s ∧ i = start d.sections position ∧ t = own s) ∨
    (∃ position s, d.sections[position]? = some s ∧ s.relocations ≠ [] ∧ i = start d.sections position + 1 ∧
      t = d.relocating s (position + 1)) ∨
    t ∈ d.tables := by
  rw [placed_eq] at h
  by_cases hl : i < d.front.length
  case neg =>
    rw [List.getElem?_append_right (Nat.le_of_not_lt hl)] at h
    exact .inr <| .inr <| List.mem_of_getElem? h
  case pos =>
    rw [List.getElem?_append_left hl] at h
    obtain ⟨position, s, hs, ⟨hi, ht⟩ | ⟨hr, hi, ht⟩⟩ := cases_groups h
    case inl => exact .inl ⟨position, s, hs, hi, ht⟩
    case inr => exact .inr <| .inl ⟨position, s, hs, hr, hi, Nat.add_comm 1 position ▸ ht⟩

theorem length_placed (d : Draft) : d.placed.length = d.symbolsAt + d.indices.length + 2 := by
  have hf := length_front d
  simp only [placed_eq, tables, List.length_append, List.length_cons, List.length_nil]
  omega

end Positions

theorem Sound.placedName (hd : d.Sound) {s : PlacedSection} (h : s ∈ d.placed) : '\x00' ∉ s.name.toList := by
  obtain ⟨i, h⟩ := List.mem_iff_getElem?.mp h
  rcases cases_placed h with ⟨position, t, ht, _, rfl⟩ | ⟨position, t, ht, _, _, rfl⟩ | h
  case inl     => exact hd.name t (List.mem_of_getElem? ht)
  case inr.inl => simpa [relocating] using hd.name t (List.mem_of_getElem? ht)
  case inr.inr =>
    rcases mem_tables h with rfl | rfl | rfl | rfl <;>
      simp only [symbolSection, indexSection, stringSection, nameSection] <;> decide

-- There are fewer sections than octets in the table of their names.
theorem HasRoom.symbolsAt_lt (hr : d.HasRoom) : d.symbolsAt + d.indices.length + 2 < Bytes.limit 4 := by
  have hl := length_lt_nameTable (d.placed.map PlacedSection.name)
  rw [List.length_map, length_placed] at hl
  exact hl.trans_le hr.names

theorem HasRoom.place_lt (hr : d.HasRoom) {n : Nat} (h : n ≤ d.sections.length) : d.place n < Bytes.limit 4 := by
  have hp : d.place n < d.symbolsAt := d.place_strictMono (Nat.lt_succ_of_le h)
  have hl := hr.symbolsAt_lt
  omega

theorem HasRoom.contents_lt (hr : d.HasRoom) {s : DraftSection} (h : s ∈ d.sections) :
    s.contents.length < Bytes.limit 8 := by
  obtain ⟨position, hp⟩ := List.mem_iff_getElem?.mp h
  have hl : offsetOf d.placed (start d.sections position) + s.contents.length ≤ d.write.length :=
    offsetOf_add_le (placed_own hp)
  exact Nat.lt_of_le_of_lt ((Nat.le_add_left ..).trans hl) (hr.file.trans (by decide))

theorem fits_placed (hr : d.HasRoom) : Fits d.placed := by
  have hn := hr.symbolsAt_lt
  have h4 : Bytes.limit 4 = 4294967296 := rfl
  have ht : ∀ s ∈ d.placed, s.type < Bytes.limit 4 ∧ s.flags < Bytes.limit 8 ∧ s.link < Bytes.limit 4 ∧
      s.info < Bytes.limit 4 := by
    intro s hs
    obtain ⟨i, hs⟩ := List.mem_iff_getElem?.mp hs
    rcases cases_placed hs with ⟨_, t, _, _, rfl⟩ | ⟨position, t, ht, _, _, rfl⟩ | h
    case inl =>
      have hf : t.use.flags < Bytes.limit 8 := by cases t.use <;> decide
      simp only [own, typeProgramBits]
      omega
    case inr.inl =>
      have hp : d.place (position + 1) < Bytes.limit 4 := hr.place_lt (List.getElem?_eq_some_iff.mp ht).fst
      have h8 : 0 < Bytes.limit 8 := by decide
      simp only [relocating, typeRelocations]
      omega
    case inr.inr =>
      rcases mem_tables h with rfl | rfl | rfl | rfl <;>
        simp only [symbolSection, indexSection, stringSection, nameSection, typeSymbolTable, typeSectionIndices,
          typeStringTable] <;>
        refine ⟨by decide, by decide, by omega, by decide⟩
  exact {
    file  := hr.file.trans (by decide)
    names := hr.names
    type s hs  := (ht s hs).left
    flags s hs := (ht s hs).right.left
    link s hs  := (ht s hs).right.right.left
    info s hs  := (ht s hs).right.right.right }

section Headers

def headersOf (d : Draft) (sections : List PlacedSection) (k : Nat) : List SectionHeader :=
  (sections.zipIdx k).map fun (s, position) => headerAt d.placed s position

theorem headers_eq (d : Draft) : headers d.placed =
    firstHeaderOf d.placed :: d.headersOf d.front 0 ++ d.headersOf d.tables d.front.length := by
  rw [headers, congrArg List.zipIdx d.placed_eq, List.zipIdx_append, Nat.zero_add, List.map_append]
  rfl

theorem headers_succ (d : Draft) (position : Nat) :
    (headers d.placed)[position + 1]? = d.placed[position]?.map (headerAt d.placed · position) := by
  rw [headers, List.getElem?_cons_succ, List.getElem?_map, List.getElem?_zipIdx, Option.map_map, Nat.zero_add]
  rfl

-- The tables are told by their types.
theorem type_of_mem_front {h : SectionHeader} (hm : h ∈ firstHeaderOf d.placed :: d.headersOf d.front 0) :
    h.type = 0 ∨ h.type = typeProgramBits ∨ h.type = typeRelocations := by
  rcases List.mem_cons.mp hm with rfl | hm
  case inl => exact .inl rfl
  case inr =>
    obtain ⟨⟨t, i⟩, ht, rfl⟩ := List.mem_map.mp hm
    obtain ⟨_, s, _, ⟨_, rfl⟩ | ⟨_, _, rfl⟩⟩ := cases_groups (List.mk_mem_zipIdx_iff_getElem?.mp ht)
    case inl => exact .inr <| .inl rfl
    case inr => exact .inr <| .inr rfl

end Headers

end EbpfManager.Elf.Draft
