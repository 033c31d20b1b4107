import EbpfManager.Files.Tree
import EbpfManager.Proofs.Results

namespace EbpfManager.Files.Tree

-- What is there in every tree.
def fixed? : Place → Option Entry
  | ⟨_, []⟩ | ⟨.root, ["proc"]⟩ => some .directory
  | ⟨.root, ["proc", "self"]⟩ => some (.link ⟨.process, []⟩)
  | ⟨.process, ["cwd"]⟩ => some (.link .working)
  | ⟨.process, ["root"]⟩ => some (.link .root)
  | _ => none

variable {t t' : Tree} {place q : Place} {path : Path}

theorem entry?_eq (t : Tree) (place : Place) :
    t.entry? place = (fixed? place).or (t.entries.get? place) := by
  unfold entry? fixed?
  split <;> simp_all

theorem fixed?_ne_file {contents : Bytes} : fixed? place ≠ some (.file contents) := by
  unfold fixed?
  split <;> simp

-- A change shows at its place and nowhere else. What is in every tree can be in the way, but then
-- nothing is created or removed there.
theorem entry?_insert {e : Entry} (hn : t.entry? place = none) (q : Place) :
    entry? ⟨t.entries.insert place e⟩ q = if place = q then some e else t.entry? q := by
  rw [entry?_eq, Option.or_eq_none_iff] at hn
  simp only [entry?_eq, Table.get?_insert]
  split
  case isTrue he => simp [← he, hn.left]
  case isFalse => rfl

theorem entry?_erase {contents : Bytes} (hf : t.entry? place = some (.file contents)) (q : Place) :
    entry? ⟨t.entries.erase place⟩ q = if place = q then none else t.entry? q := by
  have hn : fixed? place = none := by
    rw [entry?_eq] at hf
    cases hx : fixed? place
    case none => rfl
    case some e =>
      rw [hx] at hf
      exact absurd (hx.trans hf) fixed?_ne_file
  simp only [entry?_eq, Table.get?_erase]
  split
  case isTrue he => simp [← he, hn]
  case isFalse => rfl

-- Every directory and every link of one tree is in the other.
def SameWays (t t' : Tree) : Prop :=
  ∀ place p, t.directoryAt place = .ok p ↔ t'.directoryAt place = .ok p

namespace SameWays

theorem refl (t : Tree) : t.SameWays t :=
  fun _ _ => Iff.rfl

theorem trans {t'' : Tree} (w : t.SameWays t') (w' : t'.SameWays t'') : t.SameWays t'' :=
  fun place p => (w place p).trans (w' place p)

-- By induction on the parts: each step asks for a directory at one place.
theorem walk (w : t.SameWays t') {p : Place} (parts : List String) :
    t.walk place parts = .ok p ↔ t'.walk place parts = .ok p := by
  induction parts generalizing place
  case nil => exact w place p
  case cons part parts ih => simp only [Tree.walk, bind_eq_ok, w place, ih]

theorem leaf (w : t.SameWays t') {l : Leaf} : t.leaf path = .ok l ↔ t'.leaf path = .ok l := by
  simp only [Tree.leaf, bind_eq_ok, Prod.exists]
  refine exists₂_congr fun place parts => and_congr_right fun _ => ?_
  split
  case h_1 => rfl
  case h_2 last _ => simp only [bind_eq_ok, w.walk]

end SameWays

-- A change of one entry that is a file, or nothing, before and after.
theorem sameWays_of_entry? (h : ∀ q, t'.entry? q = t.entry? q ∨
    (∀ p, t.directoryAt q ≠ .ok p) ∧ ∀ p, t'.directoryAt q ≠ .ok p) : t.SameWays t' := by
  intro q p
  cases h q
  case inl he => simp only [directoryAt, he]
  case inr hn => exact iff_of_false (hn.left p) (hn.right p)

theorem directoryAt_ne_of_none (hn : t.entry? q = none) (p : Place) : t.directoryAt q ≠ .ok p := by
  simp [directoryAt, hn]

theorem directoryAt_ne_of_file {contents : Bytes} (hf : t.entry? q = some (.file contents))
    (p : Place) : t.directoryAt q ≠ .ok p := by
  simp [directoryAt, hf]

theorem sameWays_insert {contents : Bytes} (hn : t.entry? place = none) :
    t.SameWays ⟨t.entries.insert place (.file contents)⟩ := by
  refine sameWays_of_entry? fun q => ?_
  by_cases hq : place = q
  case pos =>
    have hf : entry? ⟨t.entries.insert place (.file contents)⟩ q = some (.file contents) := by
      rw [entry?_insert hn, if_pos hq]
    exact .inr ⟨directoryAt_ne_of_none (hq ▸ hn), directoryAt_ne_of_file hf⟩
  case neg => exact .inl (by rw [entry?_insert hn, if_neg hq])

theorem sameWays_erase {contents : Bytes} (hf : t.entry? place = some (.file contents)) :
    t.SameWays ⟨t.entries.erase place⟩ := by
  refine sameWays_of_entry? fun q => ?_
  by_cases hq : place = q
  case pos =>
    have hn : entry? ⟨t.entries.erase place⟩ q = none := by rw [entry?_erase hf, if_pos hq]
    exact .inr ⟨directoryAt_ne_of_file (hq ▸ hf), directoryAt_ne_of_none hn⟩
  case neg => exact .inl (by rw [entry?_erase hf, if_neg hq])

-- That a path leads to a place, without a slash at its end.
def Leads (t : Tree) (path : Path) (place : Place) : Prop :=
  ∃ directory name, t.leaf path = .ok (.named directory name false) ∧
    directory.child name = .ok place

theorem SameWays.leads (w : t.SameWays t') : t.Leads path place ↔ t'.Leads path place := by
  simp only [Leads, w.leaf]

theorem Leads.unique (l : t.Leads path place) (l' : t.Leads path q) : place = q := by
  obtain ⟨_, _, hl, hc⟩ := l
  obtain ⟨_, _, hl', hc'⟩ := l'
  cases hl.symm.trans hl'
  exact Except.ok.inj (hc.symm.trans hc')

def HasFile (t : Tree) (path : Path) (place : Place) : Prop :=
  t.Leads path place ∧ ∃ contents, t.entry? place = some (.file contents)

theorem HasFile.exists? (hf : t.HasFile path place) : t.exists? path := by
  obtain ⟨⟨directory, name, hl, hc⟩, contents, he⟩ := hf
  simp [Tree.exists?, lookup, hl, hc, he, bind, Except.bind, pure, Except.pure]

theorem hasFile_erase {path : Path} {q : Place} {contents : Bytes}
    (hf : t.entry? q = some (.file contents)) :
    HasFile ⟨t.entries.erase q⟩ path place ↔ t.HasFile path place ∧ q ≠ place := by
  simp only [HasFile, entry?_erase hf, (sameWays_erase hf).leads]
  by_cases hq : q = place <;> simp [hq]

-- Creating and removing a file, as changes of one entry.
theorem exists_of_create_eq_ok : t.create path = .ok t' → ∃ place, t.Leads path place ∧
    t.entry? place = none ∧ t' = ⟨t.entries.insert place (.file [])⟩ := by
  intro h
  simp only [create, bind_eq_ok] at h
  obtain ⟨l, hl, h⟩ := h
  split at h
  case h_1 | h_2 => cases h
  case h_3 directory name =>
    obtain ⟨place, hc, h⟩ := bind_eq_ok.mp h
    split at h
    case h_1 => cases h
    case h_2 hn =>
      unfold make at h
      split at h <;> cases h
      exact ⟨place, ⟨directory, name, hl, hc⟩, hn, rfl⟩

theorem remove_eq_ok : t.remove path = .ok t' ↔
    ∃ place, t.HasFile path place ∧ t' = ⟨t.entries.erase place⟩ := by
  constructor
  case mp =>
    intro h
    simp only [remove, bind_eq_ok] at h
    obtain ⟨l, hl, h⟩ := h
    split at h
    case h_1 => cases h
    case h_2 directory name slash =>
      obtain ⟨place, hc, h⟩ := bind_eq_ok.mp h
      split at h
      case h_1 | h_2 | h_3 => cases h
      case h_4 contents hf =>
        cases slash <;> cases h
        exact ⟨place, ⟨⟨directory, name, hl, hc⟩, contents, hf⟩, rfl⟩
  case mpr =>
    rintro ⟨place, ⟨⟨directory, name, hl, hc⟩, contents, hf⟩, he⟩
    simp [remove, hl, hc, hf, he, bind, Except.bind, pure, Except.pure]

end EbpfManager.Files.Tree
