import EbpfManager.Proofs.Handles.Sessions

namespace EbpfManager

variable {h₀ h : Host} {rest : Multiset Holding}

namespace Table

variable {κ ν : Type} [DecidableEq κ] {r : ν → ν → Prop} {t : Table κ ν} {k : κ}

-- How the objects of a table relate to those that are later under the same keys.
def Follows (r : ν → ν → Prop) (t t' : Table κ ν) : Prop :=
  ∀ ⦃k v v'⦄, t.get? k = some v → t'.get? k = some v' → r v v'

theorem follows_refl (hr : ∀ v, r v v) (t : Table κ ν) : t.Follows r t := by
  intro k v v' h h'
  cases h.symm.trans h'
  exact hr v

-- Part of a table.
def Within (t t' : Table κ ν) : Prop :=
  ∀ ⦃k v⦄, t.get? k = some v → t'.get? k = some v

theorem Within.refl (t : Table κ ν) : t.Within t := fun _ _ => id

theorem Within.trans {t t' t'' : Table κ ν} (w : t.Within t') (w' : t'.Within t'') : t.Within t'' :=
  fun _ _ h => w' (w h)

theorem erase_within (t : Table κ ν) (k : κ) : (t.erase k).Within t := by
  intro k' v h
  rw [get?_erase] at h
  split at h
  case isTrue => cases h
  case isFalse => exact h

theorem Within.follows {t t' : Table κ ν} (w : t'.Within t) (hr : ∀ v, r v v) : t.Follows r t' :=
  fun _ _ _ h h' => follows_refl hr t h (w h')

theorem Within.followed {t t' : Table κ ν} (w : t.Within t') (hr : ∀ v, r v v) : t.Follows r t' :=
  fun _ _ _ h h' => follows_refl hr t' (w h) h'

variable [LT κ] [DecidableLT κ]

theorem follows_insert (hr : ∀ v, r v v) {v' : ν} (hv : ∀ v, t.get? k = some v → r v v') :
    t.Follows r (t.insert k v') := by
  intro k' v v'' h h'
  rw [get?_insert] at h'
  split at h'
  case isTrue hk => cases h'; exact hv v (hk ▸ h)
  case isFalse => exact follows_refl hr t h h'

-- Nothing is asked of what takes the place of something else.
theorem Within.erase_follows {t' : Table κ ν} (w : t'.Within t) (hr : ∀ v, r v v) {v' : ν} :
    (t.erase k).Follows r (t'.insert k v') := by
  intro k' v v'' h h'
  rw [get?_erase] at h
  rw [get?_insert] at h'
  split at h
  case isTrue => cases h
  case isFalse hk => rw [if_neg hk] at h'; exact follows_refl hr t h (w h')

end Table

-- What was closed still is.
def Map.Follows (m m' : Map) : Prop :=
  m.handle = .closed → m'.handle = .closed

theorem Map.follows_refl (m : Map) : m.Follows m := id

theorem Program.follows_refl (p : Program) : p.Follows p := ⟨id, id⟩

def Collection.Follows (c c' : Collection) : Prop :=
  c.maps.Follows Map.Follows c'.maps ∧ c.programs.Follows Program.Follows c'.programs

theorem Collection.follows_refl (c : Collection) : c.Follows c :=
  ⟨Table.follows_refl Map.follows_refl _, Table.follows_refl Program.follows_refl _⟩

def Snapshot.Follows (i i' : Snapshot) : Prop :=
  i.maps.Follows Map.Follows i'.maps

theorem Snapshot.follows_refl (i : Snapshot) : i.Follows i :=
  Table.follows_refl Map.follows_refl _

-- Nothing is to be shown of what is not closed.
theorem MapCommand.run_follows {c : MapCommand} {m : Map} :
    Ends c.run (m, h) (fun _ s => m.Follows s.1) fun _ s => m.Follows s.1 := by
  by_cases hm : m.handle = .closed
  case pos => exact (MapCommand.run_closed (m, h) hm).imp (fun _ _ hc _ => hc) fun _ _ hc _ => hc
  case neg => exact .of_forall (fun _ _ h => absurd h hm) fun _ _ h => absurd h hm

theorem ProgramCommand.run_follows {c : ProgramCommand} {p : Program} (ha : p.Attachable) :
    Ends c.run (p, h) (fun _ s => p.Follows s.1) fun _ s => p.Follows s.1 := by
  have hr := ProgramCommand.run_attachable (c := c) (p, h) ha
  by_cases hp : p.handle = .closed
  case pos =>
    have hc := hr.and (ProgramCommand.run_closed (p, h) hp)
    exact hc.imp (fun _ _ h => ⟨fun _ => h.left, fun _ => h.right⟩)
      fun _ _ h => ⟨fun _ => h.left, fun _ => h.right⟩
  case neg =>
    exact hr.imp (fun _ _ ha => ⟨fun _ => ha, fun h => absurd h hp⟩)
      fun _ _ ha => ⟨fun _ => ha, fun h => absurd h hp⟩

namespace Collection

variable {c : Collection}

-- Only an empty collection is filled.
theorem load_follows {data : Bytes} (hs : c.Sound) (hh : h₀.Holds h rest) :
    Ends (load data) (c, h) (fun _ s => c.Follows s.1) fun _ s => c.Follows s.1 := by
  refine (load_holds hh).imp ?_ ?_
  case refine_1 =>
    rintro _ s ⟨hl, _⟩
    obtain ⟨hm, hp⟩ := hs.fresh hl
    exact ⟨fun _ _ _ h => by simp [hm] at h, fun _ _ _ h => by simp [hp] at h⟩
  case refine_2 =>
    rintro _ s ⟨hc, _⟩
    exact hc ▸ c.follows_refl

theorem loadPrograms_follows :
    Ends loadPrograms (c, h) (fun _ s => c.Follows s.1) fun _ s => c.Follows s.1 := by
  let after : Table String Program := ⟨(loadEach c.programs.entries h).2.1⟩
  have hf : List.Forall₂ (fun e e' => e.1 = e'.1 ∧ e.2.Follows e'.2) c.programs.entries after.entries :=
    loadEach_follows ..
  refine ⟨Table.follows_refl Map.follows_refl _, ?_⟩
  intro name p p' hp hp'
  obtain ⟨p'', hg, f⟩ := Table.get?_of_forall₂ hf hp
  cases hg.symm.trans hp'
  exact f

end Collection

theorem CollectionCommand.run_follows {command : CollectionCommand} {c : Collection} (hs : c.Sound)
    (hh : h₀.Holds h rest) :
    Ends command.run (c, h) (fun _ s => c.Follows s.1) fun _ s => c.Follows s.1 := by
  cases command
  case load         => exact ends_bind.mpr <| Collection.load_follows hs hh
  case loadPrograms => exact ends_bind.mpr <| Collection.loadPrograms_follows
  case state | find => exact c.follows_refl
  case loadFile path =>
    simp only [run, Collection.loadFile, ends_bind, ends_lift, ends_get, ends_accept, ends_note]
    split
    case h_1 => exact Collection.load_follows hs (Host.holds_note.mpr hh)
    case h_2 => exact c.follows_refl

namespace Session

structure Follows (s s' : Session) : Prop where
  maps        : s.maps.Follows Map.Follows s'.maps
  programs    : s.programs.Follows Program.Follows s'.programs
  collections : s.collections.Follows Collection.Follows s'.collections
  snapshots   : s.snapshots.Follows Snapshot.Follows s'.snapshots

variable {s s' s'' : Session}

theorem follows_refl (s : Session) : s.Follows s where
  maps        := Table.follows_refl Map.follows_refl _
  programs    := Table.follows_refl Program.follows_refl _
  collections := Table.follows_refl Collection.follows_refl _
  snapshots   := Table.follows_refl Snapshot.follows_refl _

structure Within (s s' : Session) : Prop where
  maps        : s.maps.Within s'.maps
  programs    : s.programs.Within s'.programs
  collections : s.collections.Within s'.collections
  snapshots   : s.snapshots.Within s'.snapshots

theorem Within.refl (s : Session) : s.Within s where
  maps        := .refl _
  programs    := .refl _
  collections := .refl _
  snapshots   := .refl _

theorem Within.trans (w : s.Within s') (w' : s'.Within s'') : s.Within s'' where
  maps        := w.maps.trans w'.maps
  programs    := w.programs.trans w'.programs
  collections := w.collections.trans w'.collections
  snapshots   := w.snapshots.trans w'.snapshots

theorem Within.follows (w : s'.Within s) : s.Follows s' where
  maps        := w.maps.follows Map.follows_refl
  programs    := w.programs.follows Program.follows_refl
  collections := w.collections.follows Collection.follows_refl
  snapshots   := w.snapshots.follows Snapshot.follows_refl

theorem Within.followed (w : s.Within s') : s.Follows s' where
  maps        := w.maps.followed Map.follows_refl
  programs    := w.programs.followed Program.follows_refl
  collections := w.collections.followed Collection.follows_refl
  snapshots   := w.snapshots.followed Snapshot.follows_refl

section

variable (s : Session) (id : String)

theorem dropMap_within : (s.dropMap id).Within s := by
  unfold dropMap
  split
  case h_1 => exact .refl s
  case h_2 => exact { Within.refl s with maps := Table.erase_within .. }

theorem dropProgram_within : (s.dropProgram id).Within s := by
  unfold dropProgram
  split
  case h_1 => exact .refl s
  case h_2 => exact { Within.refl s with programs := Table.erase_within .. }

theorem dropCollection_within : (s.dropCollection id).Within s := by
  unfold dropCollection
  split
  case h_1 => exact .refl s
  case h_2 => exact { Within.refl s with collections := Table.erase_within .. }

theorem dropSnapshot_within : (s.dropSnapshot id).Within s := by
  unfold dropSnapshot
  split
  case h_1 => exact .refl s
  case h_2 => exact { Within.refl s with snapshots := Table.erase_within .. }

end

theorem dropAll_within {map program collection snapshot : Option String} :
    (s.dropAll map program collection snapshot).2.Within s := by
  have drop {s' : Session} {id : Option String} {f : String → Session} (hw : ∀ id, (f id).Within s') :
      ((id.map f).getD s').Within s' := by
    cases id
    case none => exact .refl s'
    case some id => exact hw id
  simp only [dropAll]
  refine (drop <| dropSnapshot_within _).trans <| (drop <| dropCollection_within _).trans <|
    (drop <| dropProgram_within _).trans <| drop <| dropMap_within _

theorem follows_setMap {map map' : Map} {place : MapRef} (h : s.map? place = some map)
    (f : map.Follows map') (host : Host) : s.Follows ({ s with host }.setMap map' place) := by
  -- In each of the tables one value is replaced, by one that follows it.
  have hf {t : Table String Map} {id : String} (h : t.get? id = some map) :
      t.Follows Map.Follows (t.insert id map') := by
    refine Table.follows_insert Map.follows_refl fun m hm => ?_
    cases h.symm.trans hm
    exact f
  cases place
  case own id => exact { s.follows_refl with maps := hf h }
  case ofCollection id name =>
    obtain ⟨c, hc, hm⟩ := Option.bind_eq_some_iff.mp h
    simp only [setMap, hc]
    refine { s.follows_refl with collections := ?_ }
    refine Table.follows_insert Collection.follows_refl fun c' hc' => ?_
    cases hc.symm.trans hc'
    exact ⟨hf hm, Table.follows_refl Program.follows_refl _⟩
  case ofSnapshot id key =>
    obtain ⟨i, hi, hm⟩ := Option.bind_eq_some_iff.mp h
    simp only [setMap, hi]
    refine { s.follows_refl with snapshots := ?_ }
    refine Table.follows_insert Snapshot.follows_refl fun i' hi' => ?_
    cases hi.symm.trans hi'
    exact hf hm

theorem follows_setProgram {program program' : Program} {place : ProgramRef}
    (h : s.program? place = some program) (f : program.Follows program') (host : Host) :
    s.Follows ({ s with host }.setProgram program' place) := by
  have hf {t : Table String Program} {id : String} (h : t.get? id = some program) :
      t.Follows Program.Follows (t.insert id program') := by
    refine Table.follows_insert Program.follows_refl fun p hp => ?_
    cases h.symm.trans hp
    exact f
  cases place
  case own id => exact { s.follows_refl with programs := hf h }
  case ofCollection id name =>
    obtain ⟨c, hc, hp⟩ := Option.bind_eq_some_iff.mp h
    simp only [setProgram, hc]
    refine { s.follows_refl with collections := ?_ }
    refine Table.follows_insert Collection.follows_refl fun c' hc' => ?_
    cases hc.symm.trans hc'
    exact ⟨Table.follows_refl Map.follows_refl _, hf hp⟩

theorem onMap_follows {place : MapRef} {command : MapCommand} :
    s.Follows (s.onMap place command).2 := by
  unfold onMap
  cases h : s.map? place
  case none => exact s.follows_refl
  case some map =>
    have hr := ends_iff_editOutcome.mp <| MapCommand.run_follows (c := command) (m := map) (h := s.host)
    split at hr
    case h_1 hr' | h_2 hr' => simp only [hr']; exact follows_setMap h hr _

theorem onProgram_follows {place : ProgramRef} {command : ProgramCommand} (o : Owned h₀ rest s) :
    s.Follows (s.onProgram place command).2 := by
  unfold onProgram
  cases h : s.program? place
  case none => exact s.follows_refl
  case some program =>
    have hr := ends_iff_editOutcome.mp <|
      ProgramCommand.run_follows (c := command) (h := s.host) (attachable_of_program? o.left h)
    split at hr
    case h_1 hr' | h_2 hr' => simp only [hr']; exact follows_setProgram h hr _

theorem onCollection_follows {id : String} {command : CollectionCommand} (o : Owned h₀ rest s) :
    s.Follows (s.onCollection id command).2 := by
  unfold onCollection
  cases h : s.collections.get? id
  case none => exact s.follows_refl
  case some c =>
    have hs := o.left.collection c (Table.mem_values_of_get? h)
    have hr : Ends command.run (c, s.host) _ _ := CollectionCommand.run_follows hs o.right
    have hr := ends_iff_editOutcome.mp hr
    have done {c' : Collection} {host : Host} (f : c.Follows c') :
        s.Follows { s with host, collections := s.collections.insert id c' } := by
      refine { s.follows_refl with collections := ?_ }
      refine Table.follows_insert Collection.follows_refl fun c'' hc => ?_
      cases h.symm.trans hc
      exact f
    split at hr
    case h_1 hr' | h_2 hr' => simp only [hr']; exact done hr

-- A session without what a command puts something else in the place of.
def without (s : Session) : Command → Session
  | .newMap id _ | .openMap id _  => { s with maps := s.maps.erase id }
  | .newProgram id _              => { s with programs := s.programs.erase id }
  | .newCollection id _           => { s with collections := s.collections.erase id }
  | .snapshot _ _ (some id)       => { s with snapshots := s.snapshots.erase id }
  | _                             => s

theorem without_within {c : Command} : (s.without c).Within s := by
  unfold without
  split
  case h_1 | h_2 => exact { Within.refl s with maps := Table.erase_within .. }
  case h_3 => exact { Within.refl s with programs := Table.erase_within .. }
  case h_4 => exact { Within.refl s with collections := Table.erase_within .. }
  case h_5 => exact { Within.refl s with snapshots := Table.erase_within .. }
  case h_6 => exact .refl s

-- A command that puts an object in a place says nothing about what was there before.
theorem run_follows {c : Command} (hc : c.Plain) (o : Owned h₀ rest s) :
    (s.without c).Follows (s.run c).2 := by
  cases c
  case newMap id map =>
    have w := dropMap_within s id
    exact { w.follows with maps := w.maps.erase_follows Map.follows_refl }
  case openMap id path =>
    simp only [run, openMap]
    split
    case h_1 => exact { (without_within (s := s)).followed with }
    case h_2 host _ =>
      have w := dropMap_within { s with host } id
      exact { w.follows with maps := w.maps.erase_follows Map.follows_refl }
  case newProgram id program =>
    have w := dropProgram_within s id
    exact { w.follows with programs := w.programs.erase_follows Program.follows_refl }
  case newCollection id options =>
    have w := dropCollection_within s id
    exact { w.follows with collections := w.collections.erase_follows Collection.follows_refl }
  case onMap        => exact onMap_follows
  case onProgram    => exact onProgram_follows o
  case onCollection => exact onCollection_follows o
  case adoptMap | fault | request => exact hc.elim
  case relocate | createdMaps | list => exact s.follows_refl
  case drop         => exact dropAll_within.follows
  case snapshot collection source id =>
    have hw := without_within (s := s) (c := .snapshot collection source id)
    simp only [run, takeSnapshot]
    split
    case isFalse => exact { hw.followed with }
    case isTrue =>
      split
      case h_1 => exact { hw.followed with }
      case h_2 =>
        split
        case h_1 => exact { hw.followed with }
        case h_2 i host _ =>
          cases id
          case none => exact { hw.followed with }
          case some id =>
            have w := dropSnapshot_within { s with host } id
            exact { w.follows with snapshots := w.snapshots.erase_follows Snapshot.follows_refl }
  case reportKind | makeDirectory | write | remove =>
    simp only [run, onFiles, onMachine]
    split <;> exact { s.follows_refl with }

end Session

end EbpfManager
