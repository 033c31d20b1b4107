import EbpfManager.Elf.Draft
import EbpfManager.Proofs.Elf.Bounds
import Mathlib.Order.Monotone.Basic

namespace EbpfManager.Elf

-- What is read of a relocation.
def readRelocation (r : Nat × Nat) : Relocation where
  offset  := r.1
  symbol? := some r.2
  addend  := .inPlace

def DraftSection.read (s : DraftSection) : Section where
  name        := some (Text.encode s.name)
  isCode      := s.use = .code
  contents    := some s.contents
  relocations := s.relocations.map readRelocation

-- What is read of a symbol in a file that has section `n` under the number `place n`.
def DraftSymbol.read (place : Nat → Nat) (s : DraftSymbol) : Symbol where
  name      := some s.name
  kind      := if s.isFunction then .function else .other
  inSection := if s.number = 0 then none else some (place s.number)
  address   := s.value
  size      := s.size

-- What is read of the sections that a writer adds: no code, and no name but one that begins with a dot.
structure IsTable (s : Section) : Prop where
  isCode : s.isCode = false
  name {text : String} : s.name = some (Text.encode text) → text = "" ∨ text.toList.head? = some '.'

-- An image that has what the draft says, and nothing else that a reader could take for it.
structure Draft.Shows (d : Draft) (place : Nat → Nat) (image : Image) : Prop where
  order     : image.order = .little
  symbols   : image.symbols = d.symbols.map (DraftSymbol.read place)
  ascending : StrictMono place
  own {position : Nat} {s : DraftSection} :
    d.sections[position]? = some s → image.sections[place (position + 1)]? = some s.read
  others {number : Nat} {s : Section} : image.sections[number]? = some s →
    (∀ position < d.sections.length, place (position + 1) ≠ number) → IsTable s

-- A file that a writer may make of a draft: it is in memory, and can be read.
structure Draft.Stored (d : Draft) (file : Bytes) : Prop where
  size  : file.length < 2 ^ 63
  shown : ∃ place image, Image.read? file = some image ∧ d.Shows place image

-- Sections of a draft, from number `k` on, as they are read.
def sectionsRead (place : Nat → Nat) (sections : List DraftSection) (k : Nat) : List (Section × Nat) :=
  (sections.zipIdx k).map fun (s, n) => (s.read, place n)

theorem sectionsRead_append (place : Nat → Nat) (sections sections' : List DraftSection) (k : Nat) :
    sectionsRead place (sections ++ sections') k =
      sectionsRead place sections k ++ sectionsRead place sections' (k + sections.length) := by
  rw [sectionsRead, List.zipIdx_append, List.map_append]
  rfl

theorem mem_sectionsRead {sections : List DraftSection} {s : DraftSection} {position : Nat}
    (h : sections[position]? = some s) (place : Nat → Nat) :
    (s.read, place (position + 1)) ∈ sectionsRead place sections 1 := by
  refine List.mem_map.mpr ⟨(s, position + 1), ?_, rfl⟩
  rwa [List.mk_mem_zipIdx_iff_le_and_getElem?_sub, Nat.add_sub_cancel, and_iff_right (Nat.le_add_left ..)]

namespace Draft.Shows

variable {d : Draft} {place : Nat → Nat} {image : Image} {position number : Nat}

theorem symbol (h : d.Shows place image) {s : DraftSymbol} (hs : d.symbols[position]? = some s) :
    image.symbolTable[position + 1]? = some (s.read place) := by
  have hi : image.symbols[position]? = some (s.read place) := by rw [h.symbols, List.getElem?_map, hs, Option.map_some]
  rwa [Image.symbols, List.getElem?_drop, Nat.add_comm] at hi

theorem place_pos (h : d.Shows place image) : 0 < place (position + 1) :=
  Nat.lt_of_le_of_lt (Nat.zero_le _) (h.ascending (Nat.succ_pos position))

-- A section is one of the draft or was added.
theorem cases_section (h : d.Shows place image) {s : Section} (hs : image.sections[number]? = some s) :
    (∃ position t, d.sections[position]? = some t ∧ number = place (position + 1) ∧ s = t.read) ∨
      IsTable s := by
  by_cases hp : ∃ position < d.sections.length, place (position + 1) = number
  case neg => exact .inr <| h.others hs fun position hl he => hp ⟨position, hl, he⟩
  case pos =>
    obtain ⟨position, hl, rfl⟩ := hp
    have ht := List.getElem?_eq_getElem hl
    exact .inl ⟨position, _, ht, rfl, Option.some_inj.mp (hs.symm.trans (h.own ht))⟩

-- Without what the writer adds, the sections of an image are those of the draft.
theorem filter_sections (h : d.Shows place image) : (image.sections.zipIdx.drop 1).filter
    (· ∈ sectionsRead place d.sections 1) = sectionsRead place d.sections 1 := by
  have hi : ((image.sections.zipIdx.drop 1).filter (· ∈ sectionsRead place d.sections 1)).Pairwise (·.2 < ·.2) :=
    (ascending_zipIdx image.sections 0).sublist (List.filter_sublist.trans (List.drop_sublist ..))
  have hd : (sectionsRead place d.sections 1).Pairwise (·.2 < ·.2) :=
    List.pairwise_map.mpr <| (ascending_zipIdx d.sections 1).imp fun hlt => h.ascending hlt
  have hm : ∀ s ∈ sectionsRead place d.sections 1, s ∈ image.sections.zipIdx.drop 1 := by
    refine List.forall_mem_map.mpr fun (s, n) hs => ?_
    obtain ⟨hle, hs⟩ := List.mk_mem_zipIdx_iff_le_and_getElem?_sub.mp hs
    obtain ⟨n, rfl⟩ := Nat.exists_eq_add_of_le' hle
    exact mem_drop_zipIdx.mpr ⟨h.place_pos, h.own (Nat.add_sub_cancel n 1 ▸ hs)⟩
  exact eq_of_ascending hi hd fun s => by simpa using hm s

theorem contents_lt (h : d.Shows place image) (b : image.Bounded) {s : DraftSection} (hs : s ∈ d.sections) :
    s.contents.length < Bytes.limit 8 := by
  obtain ⟨position, hp⟩ := List.mem_iff_getElem?.mp hs
  exact (b.contents (List.mem_of_getElem? (h.own hp)) rfl).trans (by decide)

end Draft.Shows

end EbpfManager.Elf
