import EbpfManager.Proofs.Elf.Tables

namespace EbpfManager.Elf.Draft

variable {sections : List PlacedSection} {s : PlacedSection} {position : Nat}

def fileOf (sections : List PlacedSection) : Bytes :=
  fileHeader sections ++ body sections ++ sectionTable sections

section Body

theorem body_append (sections sections' : List PlacedSection) :
    body (sections ++ sections') = body sections ++ body sections' :=
  List.flatMap_append

-- Whatever comes behind some sections comes at a multiple of 8.
theorem dvd_length_body (sections : List PlacedSection) : 8 ∣ (body sections).length := by
  induction sections
  case nil => simp [body]
  case cons s sections ih =>
    have hs : s.contents.length + (roundUp 8 s.contents.length - s.contents.length) =
        roundUp 8 s.contents.length := Nat.add_sub_cancel' (le_roundUp (by decide))
    simp only [body, List.flatMap_cons, List.length_append, List.length_replicate, hs] at ih ⊢
    exact Nat.dvd_add dvd_roundUp ih

theorem dvd_offsetOf (sections : List PlacedSection) (position : Nat) : 8 ∣ offsetOf sections position :=
  Nat.dvd_add (by decide) (dvd_length_body _)

theorem body_eq (h : sections[position]? = some s) :
    ∃ rest, body sections = body (sections.take position) ++ (s.contents ++ rest) := by
  rw [congrArg body (eq_take_append_cons h), body_append]
  simp only [body, List.flatMap_cons, List.append_assoc]
  exact ⟨_, rfl⟩

end Body

theorem length_fileHeader (sections : List PlacedSection) : (fileHeader sections).length = 64 := by
  simp [fileHeader, length_fields]

-- The contents are where the offset says.
theorem slice?_fileOf (h : sections[position]? = some s) :
    (fileOf sections).slice? (offsetOf sections position) s.contents.length = some s.contents := by
  obtain ⟨rest, hb⟩ := body_eq h
  refine Bytes.slice?_of_eq (fileHeader sections ++ body (sections.take position))
    (rest ++ sectionTable sections) ?_ ?_ rfl
  case refine_1 => simp [fileOf, hb]
  case refine_2 => rw [List.length_append, length_fileHeader]; rfl

theorem offsetOf_add_le (h : sections[position]? = some s) :
    offsetOf sections position + s.contents.length ≤ (fileOf sections).length :=
  (Bytes.slice?_eq_some.mp (slice?_fileOf h)).left

-- The numbers of a section as its entry in the table has them.
def headerAt (sections : List PlacedSection) (s : PlacedSection) (position : Nat) : SectionHeader where
  nameOffset := nameOffset (sections.map PlacedSection.name) position
  type       := s.type
  flags      := s.flags
  offset     := offsetOf sections position
  size       := s.contents.length
  link       := s.link
  info       := s.info

theorem contents?_headerAt (h : sections[position]? = some s) (ht : s.type ≠ typeNoBits) :
    (headerAt sections s position).contents? (fileOf sections) = some s.contents :=
  (if_neg ht).trans (slice?_fileOf h)

theorem records?_headerAt {records : List Bytes} {size alignment : Nat} (h : sections[position]? = some s)
    (ht : s.type ≠ typeNoBits) (hc : s.contents = records.flatten) (hs : ∀ r ∈ records, r.length = size)
    (h0 : size ≠ 0) (ha : alignment ∣ 8) :
    (headerAt sections s position).records? (fileOf sections) size alignment = some records := by
  have ho : offsetOf sections position % alignment = 0 :=
    Nat.mod_eq_zero_of_dvd (Nat.dvd_trans ha (dvd_offsetOf sections position))
  have hl : records.flatten.length % size = 0 := by
    rw [Bytes.length_flatten hs, Nat.mul_mod_left]
  rw [SectionHeader.records?, contents?_headerAt h ht, hc, Option.bind_eq_bind, Option.bind_some,
    if_pos ⟨ho, hl⟩, Bytes.chunks_flatten h0 hs]

def firstHeaderOf (sections : List PlacedSection) : SectionHeader where
  nameOffset := 0
  type       := 0
  flags      := 0
  offset     := 0
  size       := if sections.length + 1 < firstReservedIndex then 0 else sections.length + 1
  link       := if sections.length < firstReservedIndex then 0 else sections.length
  info       := 0

def headers (sections : List PlacedSection) : List SectionHeader :=
  firstHeaderOf sections :: sections.zipIdx.map fun (s, position) => headerAt sections s position

def sectionRecord (sections : List PlacedSection) (placed : PlacedSection × Nat) : Bytes :=
  fields [(4, nameOffset (sections.map PlacedSection.name) placed.2), (4, placed.1.type), (8, placed.1.flags),
    (8, 0), (8, offsetOf sections placed.2), (8, placed.1.contents.length), (4, placed.1.link),
    (4, placed.1.info), (8, 8), (8, 0)]

def records (sections : List PlacedSection) : List Bytes :=
  firstHeader (sections.length + 1) sections.length :: sections.zipIdx.map (sectionRecord sections)

theorem sectionTable_eq (sections : List PlacedSection) : sectionTable sections = (records sections).flatten :=
  rfl

theorem length_of_mem_records {record : Bytes} (h : record ∈ records sections) : record.length = 64 := by
  cases List.mem_cons.mp h
  case inl h => simp [h, firstHeader, length_fields]
  case inr h =>
    obtain ⟨_, _, rfl⟩ := List.mem_map.mp h
    simp [sectionRecord, length_fields]

-- All numbers have room in their fields.
structure Fits (sections : List PlacedSection) : Prop where
  file : (fileOf sections).length < Bytes.limit 8
  names : (nameTable (sections.map PlacedSection.name)).length ≤ Bytes.limit 4
  type : ∀ s ∈ sections, s.type < Bytes.limit 4
  flags : ∀ s ∈ sections, s.flags < Bytes.limit 8
  link : ∀ s ∈ sections, s.link < Bytes.limit 4
  info : ∀ s ∈ sections, s.info < Bytes.limit 4

-- The format of all files that are written.
def written : Format where
  cls     := .bits64
  order   := .little
  machine := 247

def headerOf (sections : List PlacedSection) : Header where
  format           := written
  segmentOffset    := 0
  sectionOffset    := 64 + (body sections).length
  segmentEntrySize := 0
  segmentCount     := 0
  sectionEntrySize := 64
  sectionCount     := if sections.length + 1 < firstReservedIndex then sections.length + 1 else 0
  nameSection      := indexField sections.length

-- What every file begins with, and the numbers behind it.
def ident : Bytes :=
  [0x7F, 0x45, 0x4C, 0x46, 2, 1, 1, 0, 0, 0, 0, 0, 0, 0, 0, 0]

def numbers (sections : List PlacedSection) : List (Nat × Nat) :=
  [(2, 1), (2, 247), (4, 1), (8, 0), (8, 0), (8, 64 + (body sections).length), (4, 0), (2, 64), (2, 0), (2, 0),
    (2, 64), (2, if sections.length + 1 < firstReservedIndex then sections.length + 1 else 0),
    (2, indexField sections.length)]

theorem fileHeader_eq (sections : List PlacedSection) :
    fileHeader sections = ident ++ fields (numbers sections) :=
  rfl

theorem indexField_lt (number : Nat) : indexField number < Bytes.limit 2 := by
  unfold indexField
  split
  case isTrue h  => exact h.trans (by decide)
  case isFalse h => decide

-- The table begins at a multiple of 8 and has entries of the size that the format gives them.
theorem headerOf_sound (sections : List PlacedSection) :
    ¬((headerOf sections).sectionEntrySize ≠ (headerOf sections).format.sectionHeaderSize ∨
      (headerOf sections).sectionOffset % (headerOf sections).format.wordSize ≠ 0) := by
  have hd : (64 + (body sections).length) % 8 = 0 :=
    Nat.mod_eq_zero_of_dvd (Nat.dvd_add (by decide) (dvd_length_body sections))
  exact fun h => h.elim (fun h => h rfl) (fun h => h hd)

theorem length_records (sections : List PlacedSection) : (records sections).length = sections.length + 1 := by
  simp [records]

theorem length_sectionTable (sections : List PlacedSection) :
    (sectionTable sections).length = (sections.length + 1) * 64 := by
  rw [sectionTable_eq, Bytes.length_flatten fun r => length_of_mem_records, length_records]

namespace Fits

variable (f : Fits sections)

include f

theorem length_lt : sections.length + 1 < Bytes.limit 4 + 1 := by
  have hn := length_lt_nameTable (sections.map PlacedSection.name)
  have hl := f.names
  rw [List.length_map] at hn
  omega

theorem numbers_lt : ∀ n ∈ numbers sections, n.2 < Bytes.limit n.1 := by
  have hb : 64 + (body sections).length < Bytes.limit 8 := by
    have hl := f.file
    rw [fileOf, List.length_append, List.length_append, length_fileHeader] at hl
    omega
  have hc : (if sections.length + 1 < firstReservedIndex then sections.length + 1 else 0) < Bytes.limit 2 := by
    split
    case isTrue h  => exact h.trans (by decide)
    case isFalse h => decide
  simp only [numbers, List.forall_mem_cons, List.not_mem_nil, false_implies, implies_true, and_true]
  exact ⟨by decide, by decide, by decide, by decide, by decide, hb, by decide, by decide, by decide, by decide,
    by decide, hc, indexField_lt _⟩

theorem read?_header : Header.read? (fileOf sections) = some (headerOf sections) := by
  have hf : fileOf sections =
      ident ++ (fields (numbers sections) ++ (body sections ++ sectionTable sections)) := by
    simp [fileOf, fileHeader_eq]
  have hi : (fileOf sections).slice? 0 16 = some ident := Bytes.slice?_of_eq [] _ hf rfl rfl
  have hm : (fileOf sections).slice? 18 2 = some (Bytes.ofNat 2 247) := by
    refine Bytes.slice?_of_eq (ident ++ Bytes.ofNat 2 1)
      (fields ((numbers sections).drop 2) ++ (body sections ++ sectionTable sections)) ?_ rfl rfl
    simp [hf, fields, numbers]
  have hr : (fileOf sections).slice? 16 48 = some (fields (numbers sections)) :=
    Bytes.slice?_of_eq ident _ (by rw [hf, List.append_assoc]) rfl (by simp [length_fields, numbers])
  have hv : written.fields? [2, 2, 4, 8, 8, 8, 4, 2, 2, 2, 2, 2, 2] (fields (numbers sections)) =
      some ((numbers sections).map Prod.snd) :=
    fields?_eq _ rfl rfl f.numbers_lt
  have hw : ByteOrder.little.toNat (Bytes.ofNat 2 247) = 247 := rfl
  simp only [Header.read?, hi, ident, hm, hw, Option.bind_eq_bind, Option.bind_some, if_true]
  simp only [if_neg (show (2 : UInt8) ≠ 1 by decide), ne_eq, not_true_eq_false, if_false,
    Format.headerSize, Nat.reduceSub, hr, Format.wordSize, Option.bind_some]
  exact congrArg (Option.bind · _) hv

theorem offset_lt (h : sections[position]? = some s) : offsetOf sections position < Bytes.limit 8 ∧
    s.contents.length < Bytes.limit 8 := by
  have hl := offsetOf_add_le h
  have hf := f.file
  omega

theorem read?_record (h : sections[position]? = some s) :
    SectionHeader.read? written (sectionRecord sections (s, position)) =
      some (headerAt sections s position) := by
  have hm := List.mem_of_getElem? h
  have hp : position < (sections.map PlacedSection.name).length := by
    simpa using (List.getElem?_eq_some_iff.mp h).fst
  have hn : nameOffset (sections.map PlacedSection.name) position < Bytes.limit 4 :=
    (nameOffset_lt hp).trans_le f.names
  obtain ⟨ho, hl⟩ := f.offset_lt h
  let numbers : List (Nat × Nat) := [(4, nameOffset (sections.map PlacedSection.name) position), (4, s.type),
    (8, s.flags), (8, 0), (8, offsetOf sections position), (8, s.contents.length), (4, s.link), (4, s.info)]
  have hr : written.fields? [4, 4, 8, 8, 8, 8, 4, 4] (fields numbers ++ fields [(8, 8), (8, 0)]) =
      some (numbers.map Prod.snd) := by
    refine fields?_append numbers rfl rfl ?_ _
    simp only [numbers, List.forall_mem_cons, List.not_mem_nil, false_implies, implies_true, and_true]
    exact ⟨hn, f.type s hm, f.flags s hm, by decide, ho, hl, f.link s hm, f.info s hm⟩
  rw [← fields_append] at hr
  unfold SectionHeader.read?
  exact (congrArg (Option.bind · _) hr).trans rfl

theorem read?_firstRecord : SectionHeader.read? written (firstHeader (sections.length + 1) sections.length) =
    some (firstHeaderOf sections) := by
  have hl := f.length_lt
  let numbers : List (Nat × Nat) := [(4, 0), (4, 0), (8, 0), (8, 0), (8, 0),
    (8, if sections.length + 1 < firstReservedIndex then 0 else sections.length + 1),
    (4, if sections.length < firstReservedIndex then 0 else sections.length), (4, 0)]
  have hr : written.fields? [4, 4, 8, 8, 8, 8, 4, 4] (fields numbers ++ fields [(8, 0), (8, 0)]) =
      some (numbers.map Prod.snd) := by
    refine fields?_append numbers rfl rfl ?_ _
    simp only [numbers, List.forall_mem_cons, List.not_mem_nil, false_implies, implies_true, and_true]
    refine ⟨by decide, by decide, by decide, by decide, by decide, ?_, ?_, by decide⟩
    case refine_1 =>
      split
      case isTrue  => decide
      case isFalse => exact hl.trans (by decide)
    case refine_2 =>
      split
      case isTrue  => decide
      case isFalse => omega
  rw [← fields_append] at hr
  unfold SectionHeader.read?
  exact (congrArg (Option.bind · _) hr).trans rfl

theorem firstSection?_headerOf :
    (headerOf sections).firstSection? (fileOf sections) = some (some (firstHeaderOf sections)) := by
  have h0 : (headerOf sections).sectionOffset ≠ 0 := by
    simp only [headerOf]
    omega
  have hs : (fileOf sections).slice? (headerOf sections).sectionOffset 64 =
      some (firstHeader (sections.length + 1) sections.length) := by
    refine Bytes.slice?_of_eq (fileHeader sections ++ body sections)
      (sections.zipIdx.map (sectionRecord sections)).flatten ?_ ?_ ?_
    case refine_1 => simp [fileOf, sectionTable_eq, records]
    case refine_2 => simp [length_fileHeader, headerOf]
    case refine_3 =>
      have hm : firstHeader (sections.length + 1) sections.length ∈ records sections := List.mem_cons_self
      exact (length_of_mem_records hm).symm
  rw [Header.firstSection?, if_neg h0, if_neg (headerOf_sound sections)]
  refine (congrArg (Option.bind · _) hs).trans ?_
  rw [Option.bind_some]
  exact congrArg (Option.bind · _) f.read?_firstRecord

theorem mapM_records : (records sections).mapM (SectionHeader.read? written) = some (headers sections) := by
  refine mapM_eq_some.mpr <| .cons f.read?_firstRecord <| mapM_eq_some.mp <| mapM_map_eq_some ?_
  exact fun _ h => f.read?_record (List.mk_mem_zipIdx_iff_getElem?.mp h)

theorem sections?_headerOf : (headerOf sections).sections? (fileOf sections) = some (headers sections) := by
  have h0 : (headerOf sections).sectionOffset ≠ 0 := by
    simp only [headerOf]
    omega
  have hs : (fileOf sections).slice? (headerOf sections).sectionOffset ((sections.length + 1) * 64) =
      some (sectionTable sections) := by
    refine Bytes.slice?_of_eq (fileHeader sections ++ body sections) [] ?_ ?_
      (length_sectionTable sections).symm
    case refine_1 => simp [fileOf]
    case refine_2 => simp [length_fileHeader, headerOf]
  have hr : (sectionTable sections).chunks 64 = records sections :=
    Bytes.chunks_flatten (by decide) fun r => length_of_mem_records
  have ht : ((fileOf sections).slice? (headerOf sections).sectionOffset ((sections.length + 1) * 64)).bind
      (fun table => (table.chunks 64).mapM (SectionHeader.read? written)) = some (headers sections) := by
    rw [hs, Option.bind_some, hr, f.mapM_records]
  -- The file header has the number of sections, or leaves it to the first entry.
  rw [Header.sections?, if_neg h0]
  by_cases hl : sections.length + 1 < firstReservedIndex
  case pos =>
    have hc : (headerOf sections).sectionCount = sections.length + 1 := if_pos hl
    rw [hc]
    simp only [ne_eq, Nat.succ_ne_zero, not_false_eq_true, if_true, Option.bind_eq_bind, Option.bind_some,
      if_false]
    exact (if_neg (headerOf_sound sections)).trans ht
  case neg =>
    have hc : (headerOf sections).sectionCount = 0 := if_neg hl
    have hf : (firstHeaderOf sections).size = sections.length + 1 := if_neg hl
    rw [hc, f.firstSection?_headerOf]
    simp only [ne_eq, not_true_eq_false, if_false, Option.map_eq_map, Option.map_some, Option.elim, hf,
      Option.bind_eq_bind, Option.bind_some, Nat.succ_ne_zero]
    exact (if_neg (headerOf_sound sections)).trans ht

theorem nameSection?_headerOf (hn : sections ≠ []) :
    (headerOf sections).nameSection? (fileOf sections) = some sections.length := by
  have h0 : sections.length ≠ 0 := mt List.length_eq_zero_iff.mp hn
  by_cases hl : sections.length < firstReservedIndex
  case pos =>
    have hi : (headerOf sections).nameSection = sections.length := if_pos hl
    have he : sections.length ≠ extendedIndex := Nat.ne_of_lt (hl.trans (by decide))
    simp [Header.nameSection?, hi, he, h0]
  case neg =>
    have hi : (headerOf sections).nameSection = extendedIndex := if_neg hl
    have hk : (firstHeaderOf sections).link = sections.length := if_neg hl
    simp [Header.nameSection?, hi, f.firstSection?_headerOf, hk, h0]

end Fits

theorem segmentsSound_headerOf (sections : List PlacedSection) (file : Bytes) :
    (headerOf sections).segmentsSound file = true :=
  rfl

end EbpfManager.Elf.Draft
