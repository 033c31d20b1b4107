import EbpfManager.Proofs.Files.Ways

namespace EbpfManager.Files.Tree

variable {t₀ t t' : Tree} {place : Place}

-- Files have been made where nothing was, and that is all.
structure Grows (t t' : Tree) : Prop where
  ways        : t.SameWays t'
  entry place : t'.entry? place = t.entry? place ∨
                  t.entry? place = none ∧ t'.entry? place = some (.file [])

-- There is something now where nothing was.
def Gains (t t' : Tree) (place : Place) : Prop :=
  t.entry? place = none ∧ t'.entry? place ≠ none

theorem Grows.refl (t : Tree) : t.Grows t where
  ways    := .refl t
  entry _ := .inl rfl

theorem Grows.create {path : Path} (g : t₀.Grows t) (h : t.create path = .ok t') : t₀.Grows t' := by
  obtain ⟨place, _, hn, he⟩ := exists_of_create_eq_ok h
  subst he
  refine ⟨g.ways.trans (sameWays_insert hn), fun q => ?_⟩
  rw [entry?_insert hn]
  split
  case isFalse => exact g.entry q
  case isTrue he =>
    -- Nothing was there just before, and so nothing was there at the beginning.
    cases g.entry place
    case inl h' => exact .inr ⟨he ▸ h' ▸ hn, rfl⟩
    case inr h' => exact .inr ⟨he ▸ h'.left, rfl⟩

theorem Grows.of_create {path : Path} (h : t.create path = .ok t') : t.Grows t' :=
  (Grows.refl t).create h

-- A file that is created is where its path leads, and nothing was there.
theorem exists_hasFile_of_create {path : Path} (h : t.create path = .ok t') :
    ∃ q, t.entry? q = none ∧ t' = ⟨t.entries.insert q (.file [])⟩ ∧
      ∀ place, t'.HasFile path place ↔ q = place := by
  obtain ⟨q, hl, hn, he⟩ := exists_of_create_eq_ok h
  refine ⟨q, hn, he, fun place => ?_⟩
  have hl : t'.Leads path q := he ▸ (sameWays_insert hn).leads.mp hl
  constructor
  case mp => exact fun hf => hl.unique hf.left
  case mpr =>
    intro hq
    refine ⟨hq ▸ hl, [], ?_⟩
    rw [he, entry?_insert hn, if_pos hq]

theorem exists?_of_create {path : Path} (h : t.create path = .ok t') : t'.exists? path := by
  obtain ⟨place, _, _, hf⟩ := exists_hasFile_of_create h
  exact ((hf place).mpr rfl).exists?

-- What is gained by a file more: that file, and nothing else.
theorem gains_create_iff {path : Path} (g : t₀.Grows t) (h : t.create path = .ok t') :
    t₀.Gains t' place ↔ t₀.Gains t place ∨ t'.HasFile path place := by
  obtain ⟨q, hn, he, hq⟩ := exists_hasFile_of_create h
  have hn₀ : t₀.entry? q = none := by
    cases g.entry q
    case inl h' => exact h' ▸ hn
    case inr h' => exact h'.left
  rw [hq, he]
  simp only [Gains, entry?_insert hn]
  split
  case isTrue hp => simp [← hp, hn₀]
  case isFalse hp => simp [hp]

theorem Grows.hasFile {path : Path} (g : t.Grows t') (hf : t.HasFile path place) :
    t'.HasFile path place := by
  obtain ⟨hl, contents, he⟩ := hf
  refine ⟨g.ways.leads.mp hl, contents, ?_⟩
  cases g.entry place
  case inl h => rw [h, he]
  case inr h => simp [he] at h

-- A file that was not there before is the one that was created.
theorem hasFile_of_create {path path' : Path} (h : t.create path = .ok t')
    (hf : t'.HasFile path' place) : t.HasFile path' place ∨ t'.HasFile path place := by
  obtain ⟨hl, contents, he⟩ := hf
  have hl : t.Leads path' place := (Grows.of_create h).ways.leads.mpr hl
  by_cases hn : t.entry? place = none
  case neg =>
    refine .inl ⟨hl, contents, ?_⟩
    cases (Grows.of_create h).entry place
    case inl h' => exact h' ▸ he
    case inr h' => exact absurd h'.left hn
  case pos =>
    have hg : t.Gains t' place := ⟨hn, by simp [he]⟩
    cases (gains_create_iff (Grows.refl t) h).mp hg
    case inl hg => exact absurd hn hg.right
    case inr hf => exact .inr hf

end EbpfManager.Files.Tree
