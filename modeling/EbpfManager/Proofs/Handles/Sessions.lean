import EbpfManager.Proofs.Handles.Collections
import EbpfManager.Proofs.Handles.MapCommands
import Mathlib.Tactic.Abel

namespace EbpfManager

variable {h₀ h : Host} {rest : Multiset Holding}

-- What anybody may ask of a session. Whoever adopts a handle, calls the kernel directly or lets its
-- calls fail can get around the owners of the handles.
def Command.Plain : Command → Prop
  | .newMap _ map                        => map.handle = .unset
  | .newProgram _ program                => program.handle = .unset ∧ program.attachment = none
  | .adoptMap .. | .request _ | .fault _ => False
  | _                                    => True

namespace Session

variable {s : Session}

def held (s : Session) : Multiset Holding :=
  s.maps.total Map.held + s.programs.total Program.held + s.collections.total Collection.held +
    s.snapshots.total Snapshot.held

structure Sound (s : Session) : Prop where
  maps        : s.maps.Sorted
  programs    : s.programs.Sorted
  attachable  : ∀ p ∈ s.programs.values, p.Attachable
  collections : s.collections.Sorted
  collection  : ∀ c ∈ s.collections.values, c.Sound
  snapshots   : s.snapshots.Sorted
  snapshot    : ∀ i ∈ s.snapshots.values, i.maps.Sorted

theorem sound_new (host : Host) : Sound { host } where
  maps           := Table.sorted_empty
  programs       := Table.sorted_empty
  attachable _ h := by cases h
  collections    := Table.sorted_empty
  collection _ h := by cases h
  snapshots      := Table.sorted_empty
  snapshot _ h   := by cases h

-- The host holds what the objects of the session have, and the rest.
def Owned (h₀ : Host) (rest : Multiset Holding) (s : Session) : Prop :=
  s.Sound ∧ h₀.Holds s.host (s.held + rest)

-- What is in a place can be told from everything else.
theorem held_setMap {map : Map} {place : MapRef} (o : s.Sound) (h : s.map? place = some map) :
    ∃ others, s.held = map.held + others ∧
      ∀ host map', ({ s with host }.setMap map' place).held = map'.held + others := by
  cases place
  case own id =>
    obtain ⟨others, he, hi⟩ := o.maps.total_focus Map.held h
    refine ⟨others + s.programs.total Program.held + s.collections.total Collection.held +
      s.snapshots.total Snapshot.held, ?_, fun host map' => ?_⟩
    case refine_1 => rw [held, he]; abel
    case refine_2 => simp only [held, setMap, hi]; abel
  case ofCollection id name =>
    obtain ⟨c, hc, hm⟩ := Option.bind_eq_some_iff.mp h
    have hs := o.collection c (Table.mem_values_of_get? hc)
    obtain ⟨others, he, hi⟩ := o.collections.total_focus Collection.held hc
    obtain ⟨others', he', hi'⟩ := hs.maps.total_focus Map.held hm
    refine ⟨others + others' + c.programs.total Program.held + s.maps.total Map.held +
      s.programs.total Program.held + s.snapshots.total Snapshot.held, ?_, fun host map' => ?_⟩
    case refine_1 => rw [held, he, Collection.held, he']; abel
    case refine_2 => simp only [held, setMap, hc, hi, Collection.held, hi']; abel
  case ofSnapshot id key =>
    obtain ⟨i, hc, hm⟩ := Option.bind_eq_some_iff.mp h
    have hs := o.snapshot i (Table.mem_values_of_get? hc)
    obtain ⟨others, he, hi⟩ := o.snapshots.total_focus Snapshot.held hc
    obtain ⟨others', he', hi'⟩ := hs.total_focus Map.held hm
    refine ⟨others + others' + (if i.ownsHandle then {(i.fd, .program)} else 0) +
      s.maps.total Map.held + s.programs.total Program.held +
      s.collections.total Collection.held, ?_, fun host map' => ?_⟩
    case refine_1 => rw [held, he, Snapshot.held, he']; abel
    case refine_2 => simp only [held, setMap, hc, hi, Snapshot.held, hi']; abel

theorem held_setProgram {program : Program} {place : ProgramRef} (o : s.Sound)
    (h : s.program? place = some program) :
    ∃ others, s.held = program.held + others ∧
      ∀ host program', ({ s with host }.setProgram program' place).held = program'.held + others := by
  cases place
  case own id =>
    obtain ⟨others, he, hi⟩ := o.programs.total_focus Program.held h
    refine ⟨others + s.maps.total Map.held + s.collections.total Collection.held +
      s.snapshots.total Snapshot.held, ?_, fun host program' => ?_⟩
    case refine_1 => rw [held, he]; abel
    case refine_2 => simp only [held, setProgram, hi]; abel
  case ofCollection id name =>
    obtain ⟨c, hc, hp⟩ := Option.bind_eq_some_iff.mp h
    have hs := o.collection c (Table.mem_values_of_get? hc)
    obtain ⟨others, he, hi⟩ := o.collections.total_focus Collection.held hc
    obtain ⟨others', he', hi'⟩ := hs.programs.total_focus Program.held hp
    refine ⟨others + others' + c.maps.total Map.held + s.maps.total Map.held +
      s.programs.total Program.held + s.snapshots.total Snapshot.held, ?_, fun host program' => ?_⟩
    case refine_1 => rw [held, he, Collection.held, he']; abel
    case refine_2 => simp only [held, setProgram, hc, hi, Collection.held, hi']; abel

theorem sound_setMap {map map' : Map} {place : MapRef} (o : s.Sound) (h : s.map? place = some map) :
    (s.setMap map' place).Sound := by
  cases place
  case own id => exact { o with maps := o.maps.insert .. }
  case ofCollection id name =>
    obtain ⟨c, hc, hm⟩ := Option.bind_eq_some_iff.mp h
    have hs := o.collection c (Table.mem_values_of_get? hc)
    have hs' : { c with maps := c.maps.insert name map' }.Sound := { hs with
      maps    := hs.maps.insert ..
      fresh h := by simp [hs.fresh h] at hm }
    simp only [setMap, hc]
    exact { o with
      collections := o.collections.insert ..
      collection  := o.collections.forall_insert id o.collection hs' }
  case ofSnapshot id key =>
    obtain ⟨i, hi, hm⟩ := Option.bind_eq_some_iff.mp h
    have hs := o.snapshot i (Table.mem_values_of_get? hi)
    have hs' : { i with maps := i.maps.insert key map' }.maps.Sorted := hs.insert ..
    simp only [setMap, hi]
    exact { o with
      snapshots := o.snapshots.insert ..
      snapshot  := o.snapshots.forall_insert id o.snapshot hs' }

theorem sound_setProgram {program program' : Program} {place : ProgramRef} (o : s.Sound)
    (h : s.program? place = some program) (ha : program'.Attachable) :
    (s.setProgram program' place).Sound := by
  cases place
  case own id =>
    exact { o with
      programs   := o.programs.insert ..
      attachable := o.programs.forall_insert id o.attachable ha }
  case ofCollection id name =>
    obtain ⟨c, hc, hp⟩ := Option.bind_eq_some_iff.mp h
    have hs := o.collection c (Table.mem_values_of_get? hc)
    have hs' : { c with programs := c.programs.insert name program' }.Sound := { hs with
      programs   := hs.programs.insert ..
      attachable := hs.programs.forall_insert name hs.attachable ha
      fresh h    := by simp [hs.fresh h] at hp }
    simp only [setProgram, hc]
    exact { o with
      collections := o.collections.insert ..
      collection  := o.collections.forall_insert id o.collection hs' }

theorem attachable_of_program? {program : Program} {place : ProgramRef} (o : s.Sound)
    (h : s.program? place = some program) : program.Attachable := by
  cases place
  case own id => exact o.attachable program (Table.mem_values_of_get? h)
  case ofCollection id name =>
    obtain ⟨c, hc, hp⟩ := Option.bind_eq_some_iff.mp h
    exact (o.collection c (Table.mem_values_of_get? hc)).attachable program (Table.mem_values_of_get? hp)

@[simp] theorem host_setMap {map : Map} {place : MapRef} : (s.setMap map place).host = s.host := by
  cases place <;> simp only [setMap] <;> split <;> rfl

@[simp] theorem host_setProgram {program : Program} {place : ProgramRef} :
    (s.setProgram program place).host = s.host := by
  cases place <;> simp only [setProgram]
  split <;> rfl

-- Another host does not change what the objects have.
theorem sound_host (o : s.Sound) (host : Host) : { s with host }.Sound := { o with }

theorem onMap_owned {place : MapRef} {command : MapCommand} (o : Owned h₀ rest s) :
    Owned h₀ rest (s.onMap place command).2 := by
  obtain ⟨o, hh⟩ := o
  unfold onMap
  cases h : s.map? place
  case none => exact ⟨o, hh⟩
  case some map =>
    obtain ⟨others, he, hi⟩ := held_setMap o h
    -- Seen from the map, everything else in the session is part of the rest.
    rw [he, add_assoc] at hh
    have hr := ends_iff_editOutcome.mp <| MapCommand.run_owns (c := command) (map, s.host) hh
    have done {map' : Map} {host : Host} (hh : h₀.Holds host (map'.held + (others + rest))) :
        Owned h₀ rest ({ s with host }.setMap map' place) := by
      refine ⟨sound_setMap (sound_host o host) h, ?_⟩
      rw [hi, host_setMap, add_assoc]
      exact hh
    split at hr
    case h_1 hr' | h_2 hr' => simp only [hr']; exact done hr

theorem onProgram_owned {place : ProgramRef} {command : ProgramCommand} (o : Owned h₀ rest s) :
    Owned h₀ rest (s.onProgram place command).2 := by
  obtain ⟨o, hh⟩ := o
  unfold onProgram
  cases h : s.program? place
  case none => exact ⟨o, hh⟩
  case some program =>
    obtain ⟨others, he, hi⟩ := held_setProgram o h
    rw [he, add_assoc] at hh
    have ha := attachable_of_program? o h
    have hr := ends_iff_editOutcome.mp <| (ProgramCommand.run_owns (c := command) (program, s.host) hh).and
      (ProgramCommand.run_attachable (program, s.host) ha)
    have done {program' : Program} {host : Host}
        (hh : h₀.Holds host (program'.held + (others + rest))) (ha : program'.Attachable) :
        Owned h₀ rest ({ s with host }.setProgram program' place) := by
      refine ⟨sound_setProgram (sound_host o host) h ha, ?_⟩
      rw [hi, host_setProgram, add_assoc]
      exact hh
    split at hr
    case h_1 hr' | h_2 hr' => simp only [hr']; exact done hr.left hr.right

theorem onCollection_owned {id : String} {command : CollectionCommand} (o : Owned h₀ rest s) :
    Owned h₀ rest (s.onCollection id command).2 := by
  obtain ⟨o, hh⟩ := o
  unfold onCollection
  cases h : s.collections.get? id
  case none => exact ⟨o, hh⟩
  case some c =>
    obtain ⟨others, he, hi⟩ := o.collections.total_focus Collection.held h
    have hs := o.collection c (Table.mem_values_of_get? h)
    have total (n : Multiset Holding) : s.maps.total Map.held + s.programs.total Program.held +
        (n + others) + s.snapshots.total Snapshot.held + rest = n + (others + s.maps.total Map.held +
        s.programs.total Program.held + s.snapshots.total Snapshot.held + rest) := by
      abel
    rw [held, he, total] at hh
    have hr := ends_iff_editOutcome.mp <| CollectionCommand.run_kept (c := command) (c, s.host) ⟨hs, hh⟩
    have done {c' : Collection} {host : Host} (hs : c'.Sound) (hh : h₀.Holds host (c'.held + (others +
        s.maps.total Map.held + s.programs.total Program.held + s.snapshots.total Snapshot.held +
        rest))) :
        Owned h₀ rest { s with host, collections := s.collections.insert id c' } := by
      refine ⟨?_, ?_⟩
      case refine_1 =>
        exact { o with
          collections := o.collections.insert ..
          collection  := o.collections.forall_insert id o.collection hs }
      case refine_2 =>
        simp only [held, hi, total]
        exact hh
    split at hr
    case h_1 hr' | h_2 hr' => simp only [hr']; exact done hr.left hr.right

section Drop

variable {id : String}

theorem dropMap_owned (o : Owned h₀ rest s) : Owned h₀ rest (s.dropMap id) := by
  obtain ⟨o, hh⟩ := o
  unfold dropMap
  cases hm : s.maps.get? id
  case none => exact ⟨o, hh⟩
  case some map =>
    refine ⟨{ o with maps := o.maps.erase id }, Map.drop_holds ?_⟩
    rw [held, o.maps.total_erase hm] at hh
    simpa only [held, add_assoc] using hh

theorem dropProgram_owned (o : Owned h₀ rest s) : Owned h₀ rest (s.dropProgram id) := by
  obtain ⟨o, hh⟩ := o
  unfold dropProgram
  cases hp : s.programs.get? id
  case none => exact ⟨o, hh⟩
  case some program =>
    refine ⟨{ o with
      programs := o.programs.erase id
      attachable p hp := o.attachable p <| Table.values_erase_subset hp },
      Program.drop_holds ?_⟩
    rw [held, o.programs.total_erase hp] at hh
    simpa only [held, add_assoc, add_left_comm program.held] using hh

theorem dropCollection_owned (o : Owned h₀ rest s) : Owned h₀ rest (s.dropCollection id) := by
  obtain ⟨o, hh⟩ := o
  unfold dropCollection
  cases hc : s.collections.get? id
  case none => exact ⟨o, hh⟩
  case some c =>
    refine ⟨{ o with
      collections := o.collections.erase id
      collection c hc := o.collection c <| Table.values_erase_subset hc },
      Collection.drop_holds ?_⟩
    rw [held, o.collections.total_erase hc] at hh
    simpa only [held, add_assoc, add_left_comm c.held] using hh

theorem dropSnapshot_owned (o : Owned h₀ rest s) : Owned h₀ rest (s.dropSnapshot id) := by
  obtain ⟨o, hh⟩ := o
  unfold dropSnapshot
  cases hi : s.snapshots.get? id
  case none => exact ⟨o, hh⟩
  case some i =>
    refine ⟨{ o with
      snapshots := o.snapshots.erase id
      snapshot i hi := o.snapshot i <| Table.values_erase_subset hi },
      Snapshot.drop_holds ?_⟩
    rw [held, o.snapshots.total_erase hi] at hh
    simpa only [held, add_assoc, add_left_comm i.held] using hh

theorem dropAll_owned {map program collection snapshot : Option String} (o : Owned h₀ rest s) :
    Owned h₀ rest (s.dropAll map program collection snapshot).2 := by
  simp only [dropAll]
  have o₁ : Owned h₀ rest ((map.map s.dropMap).getD s) := by
    cases map
    case none => exact o
    case some id => exact dropMap_owned o
  generalize (map.map s.dropMap).getD s = s₁ at o₁
  have o₂ : Owned h₀ rest ((program.map s₁.dropProgram).getD s₁) := by
    cases program
    case none => exact o₁
    case some id => exact dropProgram_owned o₁
  generalize (program.map s₁.dropProgram).getD s₁ = s₂ at o₂
  have o₃ : Owned h₀ rest ((collection.map s₂.dropCollection).getD s₂) := by
    cases collection
    case none => exact o₂
    case some id => exact dropCollection_owned o₂
  generalize (collection.map s₂.dropCollection).getD s₂ = s₃ at o₃
  cases snapshot
  case none => exact o₃
  case some id => exact dropSnapshot_owned o₃

end Drop

section Put

variable {id : String}

-- What is in the place already is given up first, so that nothing is replaced.
theorem putMap_owned {map : Map} (o : Owned h₀ (map.held + rest) s) :
    Owned h₀ rest (s.putMap id map) := by
  obtain ⟨o, hh⟩ : Owned h₀ _ (s.dropMap id) := dropMap_owned o
  have hn : (s.dropMap id).maps.get? id = none := by
    unfold dropMap
    split <;> simp [*, Table.get?_erase]
  refine ⟨{ o with maps := o.maps.insert .. }, ?_⟩
  simp only [putMap, held, o.maps.total_insert_of_get?_eq_none hn]
  simpa only [held, add_assoc, add_left_comm map.held] using hh

theorem putProgram_owned {program : Program} (o : Owned h₀ (program.held + rest) s)
    (ha : program.Attachable) : Owned h₀ rest (s.putProgram id program) := by
  obtain ⟨o, hh⟩ : Owned h₀ _ (s.dropProgram id) := dropProgram_owned o
  have hn : (s.dropProgram id).programs.get? id = none := by
    unfold dropProgram
    split <;> simp [*, Table.get?_erase]
  refine ⟨{ o with
    programs   := o.programs.insert ..
    attachable := o.programs.forall_insert id o.attachable ha }, ?_⟩
  simp only [putProgram, held, o.programs.total_insert_of_get?_eq_none hn]
  simpa only [held, add_assoc, add_left_comm program.held] using hh

theorem putCollection_owned {c : Collection} (o : Owned h₀ (c.held + rest) s) (hs : c.Sound) :
    Owned h₀ rest (s.putCollection id c) := by
  obtain ⟨o, hh⟩ : Owned h₀ _ (s.dropCollection id) := dropCollection_owned o
  have hn : (s.dropCollection id).collections.get? id = none := by
    unfold dropCollection
    split <;> simp [*, Table.get?_erase]
  refine ⟨{ o with
    collections := o.collections.insert ..
    collection  := o.collections.forall_insert id o.collection hs }, ?_⟩
  simp only [putCollection, held, o.collections.total_insert_of_get?_eq_none hn]
  simpa only [held, add_assoc, add_left_comm c.held] using hh

theorem putSnapshot_owned {i : Snapshot} (o : Owned h₀ (i.held + rest) s) (hs : i.maps.Sorted) :
    Owned h₀ rest (s.putSnapshot id i) := by
  obtain ⟨o, hh⟩ : Owned h₀ _ (s.dropSnapshot id) := dropSnapshot_owned o
  have hn : (s.dropSnapshot id).snapshots.get? id = none := by
    unfold dropSnapshot
    split <;> simp [*, Table.get?_erase]
  refine ⟨{ o with
    snapshots := o.snapshots.insert ..
    snapshot  := o.snapshots.forall_insert id o.snapshot hs }, ?_⟩
  simp only [putSnapshot, held, o.snapshots.total_insert_of_get?_eq_none hn]
  simpa only [held, add_assoc, add_left_comm i.held] using hh

end Put

theorem openMap_owned {id : String} {work : Attempt Map} (o : Owned h₀ rest s)
    (hw : ∀ {rest}, h₀.Holds s.host rest →
      Ends work s.host (fun m h => h₀.Holds h (m.held + rest)) fun _ h => h₀.Holds h rest) :
    Owned h₀ rest (s.openMap id work).2 := by
  obtain ⟨o, hh⟩ := o
  have hw := ends_iff_outcome.mp <| hw hh
  unfold openMap
  split at hw
  case h_1 map host hw' =>
    simp only [hw']
    refine putMap_owned ⟨sound_host o host, ?_⟩
    rwa [add_left_comm] at hw
  case h_2 e host hw' =>
    simp only [hw']
    exact ⟨sound_host o host, hw⟩

theorem snapshotWork_holds {source : SnapshotSource} {work : Attempt Snapshot}
    (hw : s.snapshotWork source = some work) (hh : h₀.Holds h rest) :
    Ends work h (fun i h => i.maps.Sorted ∧ h₀.Holds h (i.held + rest)) fun _ h => h₀.Holds h rest := by
  cases source
  case program place =>
    obtain ⟨p, _, hp⟩ := Option.map_eq_some_iff.mp hw
    rw [← hp]
    simp only [Snapshot.ofProgram, ends_bind, ends_except]
    split
    case h_1 => exact Snapshot.ofFd_holds hh
    case h_2 => exact hh
  case fd fd => cases hw; exact Snapshot.ofFd_holds hh
  case id id => cases hw; exact Snapshot.ofId_holds hh

theorem takeSnapshot_owned {source : SnapshotSource} {id : Option String} (o : Owned h₀ rest s) :
    Owned h₀ rest (s.takeSnapshot source id).2 := by
  unfold takeSnapshot
  split
  case h_1 => exact o
  case h_2 work hw =>
    obtain ⟨o, hh⟩ := o
    have hw := ends_iff_outcome.mp <| snapshotWork_holds hw hh
    split at hw
    case h_1 i host hw' =>
      obtain ⟨hi, hh⟩ := hw
      simp only [hw']
      cases id
      case none => exact ⟨sound_host o _, Snapshot.drop_holds hh⟩
      case some id =>
        refine putSnapshot_owned ⟨sound_host o host, ?_⟩ hi
        rwa [add_left_comm] at hh
    case h_2 e host hw' =>
      simp only [hw']
      exact ⟨sound_host o host, hw⟩

theorem onFiles_owned {work : Files.Tree → Except CallError Files.Tree} (o : Owned h₀ rest s) :
    Owned h₀ rest (s.onFiles work).2 := by
  obtain ⟨o, hh⟩ := o
  unfold onFiles onMachine
  split
  case h_1 => exact ⟨o, hh⟩
  case h_2 machine hm =>
    obtain ⟨files, _, he⟩ := bind_eq_ok.mp hm
    cases he
    exact ⟨sound_host o _, hh.setFiles files⟩

theorem reportKind_owned {fd : Fd} {number : Nat} (o : Owned h₀ rest s) :
    Owned h₀ rest (s.onMachine (·.reportKind fd number)).2 := by
  obtain ⟨o, hh⟩ := o
  unfold onMachine
  split
  case h_1 => exact ⟨o, hh⟩
  case h_2 machine hm =>
    exact ⟨sound_host o _, hh.setMachine <| hh.becomes.held ▸ hh.consistent.reportKind hm⟩

-- One case for each command.
theorem run_owned {c : Command} (hc : c.Plain) (o : Owned h₀ rest s) : Owned h₀ rest (s.run c).2 := by
  cases c
  case newMap id map =>
    have h0 : map.held = 0 := by simp [Map.held, show map.handle = .unset from hc]
    exact putMap_owned (by rwa [h0, zero_add])
  case openMap    => exact openMap_owned o Map.ofPath_holds
  case adoptMap   => exact hc.elim
  case onMap      => exact onMap_owned o
  case newProgram id program =>
    obtain ⟨hu, ha⟩ : program.handle = .unset ∧ program.attachment = none := hc
    have h0 : program.held = 0 := by simp [Program.held, hu, ha]
    exact putProgram_owned (by rwa [h0, zero_add]) fun h => by simp [ha] at h
  case onProgram  => exact onProgram_owned o
  case newCollection id options =>
    have h0 : ({ options } : Collection).held = 0 := by simp [Collection.held]
    exact putCollection_owned (by rwa [h0, zero_add]) (Collection.sound_new options)
  case onCollection => exact onCollection_owned o
  case snapshot   =>
    simp only [run]
    split
    case isTrue => exact takeSnapshot_owned o
    case isFalse => exact o
  case relocate | createdMaps | list => exact o
  case drop       => exact dropAll_owned o
  case fault      => exact hc.elim
  case reportKind => exact reportKind_owned o
  case request    => exact hc.elim
  case makeDirectory | write | remove => exact onFiles_owned o

-- The sessions there can be on a kernel that is empty at the beginning.
inductive Reachable : Session → Prop
  | start (files : Files.Tree) : Reachable { host := { machine := { files } } }
  | run {s : Session} (c : Command) : c.Plain → Reachable s → Reachable (s.run c).2

theorem Reachable.owned (r : s.Reachable) : ∃ h₀, h₀.calls = [] ∧ Owned h₀ 0 s := by
  -- By induction on the run. Nothing is held at the beginning.
  induction r
  case start files =>
    exact ⟨{ machine := { files } }, rfl, sound_new _,
      Host.holds_refl (Machine.consistent_new files) rfl⟩
  case run c hc _ ih =>
    obtain ⟨h₀, hc₀, o⟩ := ih
    exact ⟨h₀, hc₀, run_owned hc o⟩

end Session

end EbpfManager
