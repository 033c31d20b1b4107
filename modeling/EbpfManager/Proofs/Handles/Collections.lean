import EbpfManager.Proofs.Handles.Programs
import EbpfManager.Proofs.Handles.Snapshots
import EbpfManager.Proofs.Loading.Filling

namespace EbpfManager

open Attempt

variable {h₀ h : Host} {rest : Multiset Holding}

namespace Assembly

-- The host holds the handles of all maps of a table, and the rest.
def Made (h₀ : Host) (rest : Multiset Holding) (maps : Table String Map) (h : Host) : Prop :=
  maps.Sorted ∧ h₀.Holds h (maps.total Map.held + rest)

theorem addMap_made {options : Options} {d : MapDefinition} :
    Maintains (fun s => Made h₀ rest s.1.maps s.2) (addMap options d) := by
  rintro ⟨a, h⟩ ⟨s, hh⟩
  have hu : (declare options d).handle = .unset := rfl
  have hh : h₀.Owns Map.held (a.maps.total Map.held + rest) (declare options d, h) := by
    simpa [Host.Owns, Map.held, hu] using hh
  refine ends_addMap.mpr <| (Map.create_owns _ hh).imp ?_ ?_
  case refine_1 =>
    intro _ m hc
    exact ⟨s.insert .., insert_holds s hc⟩
  case refine_2 =>
    intro _ m hc
    exact ⟨s, Map.drop_holds hc⟩

-- No handle is that of two maps.
theorem Made.apart {maps : Table String Map} {name name' : String} {m m' : Map} {fd : Fd}
    (hm : Made h₀ rest maps h) (hg : maps.get? name = some m) (hg' : maps.get? name' = some m')
    (hl : m.handle = .live fd) (hl' : m'.handle = .live fd) : name = name' := by
  by_contra hn
  obtain ⟨hs, hh⟩ := hm
  have he : (maps.erase name).get? name' = some m' := by rw [Table.get?_erase, if_neg hn, hg']
  rw [hs.total_erase hg, (hs.erase name).total_erase he] at hh
  have hd := hh.becomes.held ▸ Machine.held_nodup hh.consistent
  simp [Map.held, hl, hl'] at hd

-- Programs wait to be loaded.
theorem programs_unset {options : Options} {version : UInt32} {maps : Table String Map}
    {ds : List ProgramDefinition} {t : Table String Program}
    (h : programs options version maps ds = .ok t) :
    t.Sorted ∧ ∀ p ∈ t.values, p.handle = .unset ∧ p.attachment = none := by
  have c := programs_collects h
  refine ⟨c.sorted, fun p hp => ?_⟩
  obtain ⟨d, _, l⟩ := c.of_mem_values hp
  exact ⟨l.handle, l.attachment⟩

theorem build_made (options : Options) (o : ObjectFile) {a : Assembly} (hm : Made h₀ rest a.maps h) :
    Ends (build options o) (a, h)
      (fun programs s => Made h₀ rest s.1.maps s.2 ∧ programs.Sorted ∧
        ∀ p ∈ programs.values, p.handle = .unset ∧ p.attachment = none)
      fun _ s => Made h₀ rest s.1.maps s.2 := by
  refine ends_build (Ends.forM (fun d s => addMap_made s) o.maps (a, h) hm) ?_ ?_
  case refine_1 =>
    intro s t hm ht
    exact ⟨hm, programs_unset ht⟩
  case refine_2 =>
    intro s e hm _
    exact hm

theorem unpin_made {maps : Table String Map} {name : String} (hm : Made h₀ rest maps h) :
    Made h₀ rest (unpin maps h name).1 (unpin maps h name).2 := by
  obtain ⟨s, hh⟩ := hm
  unfold unpin
  cases hg : maps.get? name
  case none => exact ⟨s, hh⟩
  case some map =>
    -- The map has what it has, and the other maps are part of the rest.
    rw [s.total_erase hg, add_assoc] at hh
    have hu := ends_iff_editOutcome.mp <| Map.unpin_owns (map, h) hh
    dsimp only
    split at hu
    case h_1 hu' =>
      rw [hu']
      refine ⟨s.insert .., ?_⟩
      rw [s.total_insert, add_assoc]
      exact hu
    case h_2 hu' =>
      rw [hu']
      refine ⟨s.insert .., ?_⟩
      rw [s.total_insert, add_assoc]
      exact Host.holds_note.mpr hu

theorem unpins_made {names : List String} {maps : Table String Map} (hm : Made h₀ rest maps h) :
    Made h₀ rest (names.foldl (fun (maps, h) name => unpin maps h name) (maps, h)).1
      (names.foldl (fun (maps, h) name => unpin maps h name) (maps, h)).2 := by
  induction names generalizing maps h
  case nil => exact hm
  case cons name names ih => exact ih (unpin_made hm)

theorem undo_holds {a : Assembly} (hm : Made h₀ rest a.maps h) : h₀.Holds (a.undo h) rest :=
  dropMaps_holds (unpins_made hm).right

end Assembly

namespace Collection

def held (c : Collection) : Multiset Holding :=
  c.maps.total Map.held + c.programs.total Program.held

-- Nothing is in a collection before it is filled.
structure Sound (c : Collection) : Prop where
  maps       : c.maps.Sorted
  programs   : c.programs.Sorted
  attachable : ∀ p ∈ c.programs.values, p.Attachable
  fresh      : c.loaded = false → c.maps = .empty ∧ c.programs = .empty

theorem sound_new (options : Options) : Sound { options } where
  maps           := Table.sorted_empty
  programs       := Table.sorted_empty
  attachable _ h := by cases h
  fresh _        := ⟨rfl, rfl⟩

-- Whatever goes wrong, nothing has changed then.
theorem load_holds {c : Collection} {data : Bytes} (hh : h₀.Holds h rest) :
    Ends (load data) (c, h)
      (fun _ s => c.loaded = false ∧ s.1.loaded = true ∧
        Assembly.Made h₀ rest s.1.maps s.2 ∧ s.1.programs.Sorted ∧
        ∀ p ∈ s.1.programs.values, p.handle = .unset ∧ p.attachment = none)
      fun _ s => s.1 = c ∧ h₀.Holds s.2 rest := by
  refine ends_load (fun _ => ⟨rfl, hh⟩) (fun _ _ _ => ⟨rfl, hh⟩) fun o hl _ => ?_
  have hm : Assembly.Made h₀ rest ({} : Assembly).maps h := ⟨Table.sorted_empty, by simpa using hh⟩
  refine (Assembly.build_made c.options o hm).imp ?_ ?_
  case refine_1 =>
    rintro _ s ⟨⟨hs, hh⟩, hp⟩
    exact fun _ => ⟨hl, rfl, ⟨hs, Host.holds_note.mpr hh⟩, hp⟩
  case refine_2 =>
    intro _ s hm
    exact ⟨rfl, Assembly.undo_holds hm⟩

-- What is kept of a collection whatever is asked of it.
def Kept (h₀ : Host) (rest : Multiset Holding) (s : Collection × Host) : Prop :=
  s.1.Sound ∧ h₀.Owns held rest s

theorem load_kept {data : Bytes} : Maintains (Kept h₀ rest) (load data) := by
  rintro ⟨c, h⟩ ⟨hs, hh⟩
  refine (load_holds hh).imp ?_ ?_
  case refine_1 =>
    rintro _ ⟨c', h⟩ ⟨hl, hl', hm, hp, hu⟩
    have hf : c.maps = .empty ∧ c.programs = .empty := hs.fresh hl
    have h0 : c.held = 0 := by simp [held, hf]
    have hp0 : c'.programs.total Program.held = 0 := by
      refine Table.total_eq_zero fun p hm => ?_
      simp [Program.held, hu p hm]
    refine ⟨?_, ?_⟩
    case refine_1 =>
      exact {
        maps           := hm.left
        programs       := hp
        attachable p h := fun ha => by simp [hu p h] at ha
        fresh h        := by cases hl'.symm.trans h }
    case refine_2 =>
      have hm : h₀.Holds h (c'.maps.total Map.held + (c.held + rest)) := hm.right
      rw [h0, zero_add] at hm
      simpa [Host.Owns, held, hp0] using hm
  case refine_2 =>
    rintro _ ⟨c', h⟩ ⟨hc, hh⟩
    cases hc
    exact ⟨hs, hh⟩

theorem loadFile_kept {path : Path} : Maintains (Kept h₀ rest) (loadFile path) := by
  rintro ⟨c, h⟩ hk
  simp only [loadFile, ends_bind, ends_lift, ends_get, ends_accept, ends_note]
  split
  case h_1 => exact load_kept _ ⟨hk.left, Host.holds_note.mpr hk.right⟩
  case h_2 => exact hk

theorem loadEach_holds {ps : List (String × Program)}
    (hh : h₀.Holds h ((ps.map (·.2.held)).sum + rest)) :
    h₀.Holds (loadEach ps h).2.2 (((loadEach ps h).2.1.map (·.2.held)).sum + rest) := by
  induction ps generalizing h rest
  case nil => exact hh
  case cons e ps ih =>
    obtain ⟨name, p⟩ := e
    simp only [List.map_cons, List.sum_cons, add_assoc] at hh
    have hl := ends_iff_editOutcome.mp <| Program.load_owns (p, h) hh
    simp only [loadEach]
    split at hl
    case h_1 hl' | h_2 hl' =>
      rw [hl']
      simp only [List.map_cons, List.sum_cons, add_assoc]
      rw [add_left_comm]
      refine ih ?_
      rw [add_left_comm]
      exact hl

-- The programs keep their order and their names.
theorem loadEach_follows (ps : List (String × Program)) (h : Host) :
    List.Forall₂ (fun e e' => e.1 = e'.1 ∧ e.2.Follows e'.2) ps (loadEach ps h).2.1 := by
  induction ps generalizing h
  case nil => exact .nil
  case cons e ps ih =>
    obtain ⟨name, p⟩ := e
    have hl := ends_iff_editOutcome.mp <| Program.load_follows (p := p) (h := h)
    simp only [loadEach]
    split at hl
    case h_1 hl' | h_2 hl' =>
      rw [hl']
      exact .cons ⟨rfl, hl⟩ (ih _)

theorem loadPrograms_kept : Maintains (Kept h₀ rest) loadPrograms := by
  rintro ⟨c, h⟩ ⟨hs, hh⟩
  have hf := loadEach_follows c.programs.entries h
  have hh : h₀.Holds h (c.held + rest) := hh
  rw [held, add_comm (c.maps.total _), add_assoc, Table.total_eq_sum c.programs] at hh
  have hl := loadEach_holds hh
  show Kept h₀ rest ({ c with programs := ⟨(loadEach c.programs.entries h).2.1⟩ },
    (loadEach c.programs.entries h).2.2)
  refine ⟨?_, ?_⟩
  case refine_1 =>
    exact {
      maps     := hs.maps
      programs := by
        refine hs.programs.of_keys ?_
        exact Table.keys_of_forall₂ hf
      attachable p hp := by
        obtain ⟨p', hp', f⟩ := Table.exists_of_forall₂ hf hp
        exact f.attachable (hs.attachable p' hp')
      fresh hc := by
        obtain ⟨hm, hp⟩ : c.maps = .empty ∧ c.programs = .empty := hs.fresh hc
        exact ⟨hm, by rw [hp]; rfl⟩ }
  case refine_2 =>
    show h₀.Holds _ (c.maps.total Map.held + Table.total _ ⟨_⟩ + rest)
    rw [add_comm (c.maps.total _), add_assoc, Table.total_eq_sum]
    exact hl

theorem drop_holds {c : Collection} (hh : h₀.Holds h (c.held + rest)) : h₀.Holds (c.drop h) rest := by
  have key (ps : List Program) (h : Host) (hh : h₀.Holds h ((ps.map Program.held).sum + rest)) :
      h₀.Holds (ps.foldl (fun h p => p.drop h) h) rest := by
    induction ps generalizing h
    case nil => simpa using hh
    case cons p ps ih => exact ih _ <| Program.drop_holds (by simpa [add_assoc] using hh)
  rw [held, add_assoc] at hh
  exact key _ _ (dropMaps_holds hh)

end Collection

namespace CollectionCommand

open Collection (Kept)

theorem run_kept {c : CollectionCommand} : Maintains (Kept h₀ rest) c.run := by
  cases c
  case load         => exact Collection.load_kept.bind fun _ _ => id
  case loadFile     => exact Collection.loadFile_kept.bind fun _ _ => id
  case loadPrograms => exact Collection.loadPrograms_kept.bind fun _ _ => id
  case state | find => exact fun _ hk => hk

end CollectionCommand

end EbpfManager
