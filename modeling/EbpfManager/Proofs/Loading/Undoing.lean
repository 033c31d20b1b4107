import EbpfManager.Collection
import EbpfManager.Proofs.Loading.Pins

namespace EbpfManager.Assembly

open Files (Tree Place)

variable {h : Host} {t : Tree} {place : Place} {maps : Table String Map} {names : List String}

-- Where the map that goes by a name is pinned.
def pathOf? (maps : Table String Map) (name : String) : Option Path :=
  (maps.get? name).bind Map.pinPath

-- The file at a place is that of a map that goes by one of the names.
def Finds (maps : Table String Map) (t : Tree) (names : List String) (place : Place) : Prop :=
  ∃ name ∈ names, ∃ path, pathOf? maps name = some path ∧ t.HasFile path place

-- Either a file is removed, and its map is not pinned any more, or there is no file to remove.
theorem unpin_files (maps : Table String Map) (h : Host) (name : String) :
    (∃ path place, pathOf? maps name = some path ∧ h.machine.files.HasFile path place ∧
      (unpin maps h name).2.machine.files = ⟨h.machine.files.entries.erase place⟩ ∧
      ∀ name', pathOf? (unpin maps h name).1 name' =
        if name = name' then none else pathOf? maps name') ∨
    (∀ path place, pathOf? maps name = some path → ¬h.machine.files.HasFile path place) ∧
      (unpin maps h name).2.machine.files = h.machine.files ∧
      ∀ name', pathOf? (unpin maps h name).1 name' = pathOf? maps name' := by
  unfold unpin
  cases hg : maps.get? name
  case none => simp [pathOf?, hg]
  case some m =>
    have hu := ends_iff_editOutcome.mp <| Map.unpin_files (m := m) (h := h)
    dsimp only
    split at hu
    case h_1 hu' =>
      obtain ⟨path, hp, hm, hr⟩ := hu
      obtain ⟨place, hf, ht⟩ := Files.Tree.remove_eq_ok.mp hr
      rw [hu']
      refine .inl ⟨path, place, by simp [pathOf?, hg, hp], hf, ht, fun name' => ?_⟩
      simp only [pathOf?, Table.get?_insert]
      split <;> simp [hm]
    case h_2 hu' =>
      obtain ⟨hs, hn⟩ := hu
      cases hs
      rw [hu']
      refine .inr ⟨fun path place hp hf => ?_, rfl, fun name' => ?_⟩
      case refine_1 =>
        have hp : m.pinPath = some path := by simpa [pathOf?, hg] using hp
        exact hn path _ hp (Files.Tree.remove_eq_ok.mpr ⟨place, hf, rfl⟩)
      case refine_2 =>
        simp only [pathOf?, Table.get?_insert]
        split
        case isTrue he => simp [← he, hg]
        case isFalse => rfl

section

variable {maps' : Table String Map} {name : String}

-- The names find the file that is removed, and what the names behind find afterwards.
theorem finds_cons_of_removed {path : Path} {q : Place} (hp : pathOf? maps name = some path)
    (hf : t.HasFile path q)
    (hm : ∀ name', pathOf? maps' name' = if name = name' then none else pathOf? maps name') :
    Finds maps t (name :: names) place ↔
      q = place ∨ Finds maps' ⟨t.entries.erase q⟩ names place := by
  obtain ⟨hl, contents, hc⟩ := hf
  simp only [Finds, hm, Files.Tree.hasFile_erase hc, List.mem_cons]
  constructor
  case mp =>
    rintro ⟨name', hn, path', hp', hf'⟩
    by_cases hq : q = place
    case pos => exact .inl hq
    case neg =>
      -- A path leads to one place only, so another place goes by another name.
      have he : name ≠ name' := by
        intro he
        cases hp.symm.trans (he ▸ hp')
        exact hq (hl.unique hf'.left)
      have hn : name' ∈ names := hn.resolve_left (Ne.symm he)
      exact .inr ⟨name', hn, path', by simp [he, hp'], hf', hq⟩
  case mpr =>
    intro hd
    cases hd
    case inl hq =>
      subst hq
      exact ⟨name, .inl rfl, path, hp, hl, contents, hc⟩
    case inr hd =>
      obtain ⟨name', hn, path', hp', hf', _⟩ := hd
      split at hp'
      case isTrue => cases hp'
      case isFalse => exact ⟨name', .inr hn, path', hp', hf'⟩

theorem finds_cons_of_kept (hn : ∀ path q, pathOf? maps name = some path → ¬t.HasFile path q)
    (hm : ∀ name', pathOf? maps' name' = pathOf? maps name') :
    Finds maps t (name :: names) place ↔ Finds maps' t names place := by
  simp only [Finds, hm, List.mem_cons]
  grind

end

-- By induction on the names: a file that was removed stays removed, and is not found again.
theorem unpins_entry (names : List String) (maps : Table String Map) (h : Host) (place : Place) :
    let h' := (names.foldl (fun (maps, h) name => unpin maps h name) (maps, h)).2
    (Finds maps h.machine.files names place → h'.machine.files.entry? place = none) ∧
    (¬Finds maps h.machine.files names place →
      h'.machine.files.entry? place = h.machine.files.entry? place) := by
  induction names generalizing maps h
  case nil => simp [Finds]
  case cons name names ih =>
    have ih := ih (unpin maps h name).1 (unpin maps h name).2
    dsimp only [List.foldl_cons] at ih ⊢
    cases unpin_files maps h name
    case inl hu =>
      obtain ⟨path, q, hp, hf, ht, hm⟩ := hu
      have he : (unpin maps h name).2.machine.files.entry? place =
          if q = place then none else h.machine.files.entry? place := by
        obtain ⟨_, _, hc⟩ := hf
        rw [ht, Files.Tree.entry?_erase hc]
      rw [finds_cons_of_removed hp hf hm, ← ht]
      by_cases hq : q = place
      case pos =>
        rw [if_pos hq] at he
        refine ⟨fun _ => ?_, fun hn => absurd (.inl hq) hn⟩
        by_cases hn : Finds (unpin maps h name).1 (unpin maps h name).2.machine.files names place
        case pos => exact ih.left hn
        case neg => rw [ih.right hn, he]
      case neg =>
        rw [if_neg hq] at he
        refine ⟨fun hn => ih.left (hn.resolve_left hq), fun hn => ?_⟩
        rw [ih.right fun hn' => hn (.inr hn'), he]
    case inr hu =>
      obtain ⟨hn, ht, hm⟩ := hu
      rw [finds_cons_of_kept hn hm, ← ht]
      exact ih

theorem dropMaps_files (maps : Table String Map) (h : Host) :
    (dropMaps maps h).machine.files = h.machine.files := by
  have key (ms : List Map) (h : Host) :
      (ms.foldl (fun h map => map.drop h) h).machine.files = h.machine.files := by
    induction ms generalizing h
    case nil => rfl
    case cons m ms ih => exact (ih (m.drop h)).trans Map.drop_files
  exact key _ h

-- What undoing leaves of a file.
theorem undo_entry (a : Assembly) (h : Host) (place : Place) :
    (Finds a.maps h.machine.files a.pinned place →
      (a.undo h).machine.files.entry? place = none) ∧
    (¬Finds a.maps h.machine.files a.pinned place →
      (a.undo h).machine.files.entry? place = h.machine.files.entry? place) := by
  simp only [undo, dropMaps_files]
  exact unpins_entry a.pinned a.maps h place

end EbpfManager.Assembly
