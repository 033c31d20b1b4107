import EbpfManager.Proofs.Entries.Mirrors
import EbpfManager.Proofs.Handles.Ownership
import EbpfManager.Proofs.Requests.Runs

namespace EbpfManager

open Attempt (Asks Yields)
open Request (Quiet)

variable {p : Request → Prop} {h h' : Host}

-- All maps of a table.
def FaithfulMaps (machine : Machine) (maps : Table String Map) : Prop :=
  ∀ key m, maps.get? key = some m → m.Faithful machine

namespace FaithfulMaps

variable {maps : Table String Map} {machine : Machine}

theorem empty : FaithfulMaps machine .empty :=
  fun _ _ h => by cases h

theorem leads (f : FaithfulMaps h.machine maps) (l : h.Leads p h') (o : h.Sane) :
    FaithfulMaps h'.machine maps :=
  fun key m hm => (f key m hm).leads l o

theorem insert {m : Map} (f : FaithfulMaps machine maps) (key : String) (hm : m.Faithful machine) :
    FaithfulMaps machine (maps.insert key m) :=
  Table.forall_get?_insert f hm

end FaithfulMaps

namespace Snapshot

theorem below_of_mapFdById {id : Nat} {fd : Fd} (o : h.Sane)
    (hr : (h.machine.answer (.mapFdById id)).1 = .ok fd) :
    fd < (h.perform (.mapFdById id)).2.machine.nextFd := by
  rw [o.machine]
  exact Machine.lt_nextFd_openHandle (Machine.mapFdById_eq_ok <| Machine.eq_ok_of_settle hr).right

theorem openMap_yields (id : Nat) (o : h.Sane) :
    Yields (openMap id) h fun map h' => ∀ m, map = some m → m.Faithful h'.machine := by
  have l : h.Leads Quiet (h.perform (.mapFdById id)).2 := .perform trivial
  refine .perform o ?_
  refine .bind (q := fun fd h => fd < h.machine.nextFd) (p := Quiet) (.accept ..)
    (.accept fun fd hr => below_of_mapFdById o hr) fun fd h₁ l₁ hb => ?_
  have o₁ := l₁.sane (l.sane o)
  refine .bind (Map.infoOrRelease_asks _ fd) (Map.infoOrRelease_yields _ o₁ hb) fun info h₂ l₂ b => ?_
  split
  case isTrue =>
    refine .after (p := Quiet) (.note ..) fun _ _ _ => ?_
    exact .after (Map.release_asks fd) fun _ _ _ _ hm => by cases hm
  case isFalse =>
    refine .bind (Map.ofInfo_asks fd info) (Map.ofInfo_yields (l₂.sane o₁) b) fun m h₃ l₃ f => ?_
    exact fun _ hm => Option.some.inj hm ▸ f

theorem gather_yields (ids : List Nat) {maps : Table String Map} (o : h.Sane)
    (f : FaithfulMaps h.machine maps) :
    Yields (gather ids maps) h fun maps h' => FaithfulMaps h'.machine maps := by
  induction ids generalizing maps h
  case nil => exact f
  case cons id ids ih =>
    refine .bind (.orElseClean (openMap_asks id) (dropMaps_leads _))
      (ends_orElseClean.mpr <| openMap_yields id o) fun map h₁ l₁ hm => ?_
    have o₁ := l₁.sane o
    have f₁ := f.leads l₁ o
    cases map
    case none => exact ih o₁ f₁
    case some map =>
      refine .after (p := Quiet) (.modify (replace_leads _)) fun _ h₂ l₂ => ih (l₂.sane o₁) ?_
      exact (f₁.leads l₂ o₁).insert _ ((hm map rfl).leads l₂ o₁)

theorem build_yields (fd : Fd) (ownsHandle : Bool) (o : h.Sane) :
    Yields (build fd ownsHandle) h fun i h' => FaithfulMaps h'.machine i.maps := by
  have l : h.Leads Quiet (h.perform (.programInfo fd)).2 := .perform trivial
  refine .perform o ?_
  refine .after (p := Quiet) (.accept ..) fun info h₁ l₁ => ?_
  have o₁ := l₁.sane (l.sane o)
  exact .bind (gather_asks ..) (gather_yields _ o₁ .empty) fun maps h₂ _ f => f

theorem ofId_yields (id : Nat) (o : h.Sane) :
    Yields (ofId id) h fun i h' => FaithfulMaps h'.machine i.maps := by
  have l : h.Leads Quiet (h.perform (.programFdById id)).2 := .perform trivial
  refine .perform o ?_
  refine .after (p := Quiet) (.accept ..) fun fd h₁ l₁ => ?_
  exact ends_orElseClean.mpr <| build_yields fd true (l₁.sane (l.sane o))

end Snapshot

namespace Assembly

variable {options : Options}

def Mirrored (s : Assembly × Host) : Prop :=
  s.2.Sane ∧ FaithfulMaps s.2.machine s.1.maps

theorem addMap_mirrored (d : MapDefinition) : Maintains Mirrored (addMap options d) := by
  rintro ⟨a, h⟩ ⟨o, f⟩
  have hd : Map.Kept Map.Sized (declare options d, h) := by
    refine Map.kept_of_not_live o ⟨?_, ?_, ?_⟩ fun _ hm => by cases hm
    case refine_1 => exact d.shape.keySize.toNat_lt
    case refine_2 => exact d.shape.valueSize.toNat_lt
    case refine_3 => exact d.shape.maxEntries.toNat_lt
  refine ends_addMap.mpr <| ((Map.create_asks.ends (declare options d, h)).and
    (Map.create_kept Map.declared_sized _ hd)).imp ?_ ?_
  case refine_1 =>
    intro _ ⟨m, h₁⟩ ⟨l, k⟩
    have l₁ := replace_leads (a.maps.get? d.name) h₁
    have fm := (k.right.leads l₁ k.left).faithful k.right.declared
    exact ⟨l₁.sane k.left, ((f.leads l o).leads l₁ k.left).insert _ fm⟩
  case refine_2 =>
    intro _ ⟨m, h₁⟩ ⟨l, k⟩
    have l := l.trans (m.drop_leads h₁)
    exact ⟨l.sane o, f.leads l o⟩

theorem build_mirrored (object : ObjectFile) : Maintains Mirrored (build options object) := by
  intro s k
  have km : Ends (object.maps.forM (addMap options)) s (fun _ => Mirrored) fun _ => Mirrored :=
    Ends.forM (fun d s k => addMap_mirrored d s k) object.maps s k
  exact ends_build km (fun _ _ k _ => k) fun _ _ k _ => k

end Assembly

namespace Collection

def Mirrored (s : Collection × Host) : Prop :=
  s.2.Sane ∧ FaithfulMaps s.2.machine s.1.maps

theorem Mirrored.leads {c : Collection} (k : Mirrored (c, h)) (l : h.Leads p h') : Mirrored (c, h') :=
  ⟨l.sane k.left, k.right.leads l k.left⟩

theorem load_mirrored (data : Bytes) : Maintains Mirrored (load data) := by
  rintro ⟨c, h⟩ k
  refine ends_load (fun _ => k) (fun _ _ _ => k) fun object _ _ => ?_
  have w : Ends (Assembly.build c.options object) ({}, h) (fun _ s => h.Leads Quiet s.2)
      fun _ s => h.Leads Quiet s.2 :=
    (Assembly.build_asks object).ends ({}, h)
  refine (w.and (Assembly.build_mirrored object ({}, h) ⟨k.left, .empty⟩)).imp ?_ ?_
  case refine_1 =>
    intro _ ⟨a, h₁⟩ ⟨l, ka⟩ text
    have l₁ : h₁.Leads Quiet (h₁.note .debug text) := .note .debug text .refl
    exact ⟨l₁.sane ka.left, ka.right.leads l₁ ka.left⟩
  case refine_2 => exact fun _ ⟨a, h₁⟩ ⟨l, _⟩ => k.leads (l.trans (a.undo_leads h₁))

theorem loadFile_mirrored (path : Path) : Maintains Mirrored (loadFile path) := by
  rintro ⟨c, h⟩ k
  simp only [loadFile, ends_bind, ends_lift, ends_get, ends_accept, ends_note]
  split
  case h_1 data _ => exact load_mirrored data _ (k.leads (p := Quiet) (.note .info _ .refl))
  case h_2 => exact k

theorem loadPrograms_mirrored : Maintains Mirrored loadPrograms :=
  fun (c, h) k => k.leads (loadEach_leads c.programs.entries h)

theorem run_mirrored (command : CollectionCommand) : Maintains Mirrored command.run := by
  cases command
  case load data    => exact (load_mirrored data).bind fun _ _ k => k
  case loadFile     => exact (loadFile_mirrored _).bind fun _ _ k => k
  case loadPrograms => exact loadPrograms_mirrored.bind fun _ _ k => k
  case state | find => exact fun _ k => k

end Collection

-- Sizes that the kernel can be told of.
def Command.Sized : Command → Prop
  | .newMap _ map => map.Sized
  | _             => True

section

variable {d : Map → Prop}

-- What is known of the declaration of a map that is kept in a place.
def MapRef.declared (d : Map → Prop) : MapRef → Map → Prop
  | .own _ => d
  | _      => Map.Sized

theorem Map.Declared.place (hd : Map.Declared d) (place : MapRef) : Map.Declared (place.declared d) := by
  cases place
  case own => exact hd
  case ofCollection | ofSnapshot => exact Map.declared_sized

end

namespace Session

variable {d : Map → Prop}

structure Faithful (s : Session) : Prop where
  sane        : s.host.Sane
  maps        : FaithfulMaps s.host.machine s.maps
  collections : ∀ id c, s.collections.get? id = some c → FaithfulMaps s.host.machine c.maps
  snapshots   : ∀ id i, s.snapshots.get? id = some i → FaithfulMaps s.host.machine i.maps

-- The maps of collections and snapshots are faithful. Of the session's own maps the kernel has been
-- told what it can be told.
structure Told (d : Map → Prop) (s : Session) : Prop where
  sane        : s.host.Sane
  maps        : ∀ id m, s.maps.get? id = some m → m.Told d s.host.machine
  collections : ∀ id c, s.collections.get? id = some c → FaithfulMaps s.host.machine c.maps
  snapshots   : ∀ id i, s.snapshots.get? id = some i → FaithfulMaps s.host.machine i.maps

theorem Faithful.told {s : Session} (f : s.Faithful) (hd : Map.Declared d) : s.Told d :=
  { f with maps := fun id m hm => (f.maps id m hm).told hd }

theorem Told.faithful {s : Session} (t : s.Told Map.Sized) : s.Faithful :=
  { t with maps := fun id m hm => (t.maps id m hm).faithful (t.maps id m hm).declared }

-- A session on a kernel that is empty.
def fresh (files : Files.Tree) : Session :=
  { host := { machine := { files } } }

theorem faithful_fresh (files : Files.Tree) : (fresh files).Faithful where
  sane              := Host.sane_new files
  maps              := .empty
  collections _ _ h := by cases h
  snapshots _ _ h   := by cases h

theorem snapshotWork_yields {s : Session} {source : SnapshotSource} {work : Attempt Snapshot}
    (hw : s.snapshotWork source = some work) (o : h.Sane) :
    Yields work h fun i h' => FaithfulMaps h'.machine i.maps := by
  cases source
  case program place =>
    obtain ⟨p, _, rfl⟩ := Option.map_eq_some_iff.mp hw
    exact .after (p := Quiet) (.except _) fun fd h' l => Snapshot.build_yields fd false (l.sane o)
  case fd fd => cases hw; exact Snapshot.build_yields fd false o
  case id id => cases hw; exact Snapshot.ofId_yields id o

namespace Told

variable {s : Session} {host : Host}

theorem retained (t : s.Told d) (o : host.Sane) (r : s.host.machine.Retains host.machine) : Told d { s with host } where
  sane                     := o
  maps id m h              := (t.maps id m h).retained r t.sane.consistent
  collections id c h key m hm := (t.collections id c h key m hm).retained r t.sane.consistent
  snapshots id i h key m hm   := (t.snapshots id i h key m hm).retained r t.sane.consistent

theorem leads (t : s.Told d) (l : s.host.Leads p host) : Told d { s with host } :=
  t.retained (l.sane t.sane) (l.retains t.sane)

-- What is known of the map in a place.
theorem place (t : s.Told d) {place : MapRef} {m : Map} (h : s.map? place = some m) :
    m.Told (place.declared d) s.host.machine := by
  cases place
  case own id => exact t.maps id m h
  case ofCollection id name =>
    obtain ⟨c, hc, hm⟩ := Option.bind_eq_some_iff.mp h
    exact (t.collections id c hc name m hm).told Map.declared_sized
  case ofSnapshot id key =>
    obtain ⟨i, hi, hm⟩ := Option.bind_eq_some_iff.mp h
    exact (t.snapshots id i hi key m hm).told Map.declared_sized

theorem setMap (t : s.Told d) {place : MapRef} {m : Map} (hm : m.Told (place.declared d) s.host.machine) :
    (s.setMap m place).Told d := by
  cases place
  case own id => exact { t with maps := Table.forall_get?_insert t.maps hm }
  case ofCollection id name =>
    simp only [Session.setMap]
    split
    case h_1 => exact t
    case h_2 c hc =>
      have hm := (t.collections id c hc).insert name (hm.faithful hm.declared)
      exact { t with collections := Table.forall_get?_insert t.collections hm }
  case ofSnapshot id key =>
    simp only [Session.setMap]
    split
    case h_1 => exact t
    case h_2 i hi =>
      have hm := (t.snapshots id i hi).insert key (hm.faithful hm.declared)
      exact { t with snapshots := Table.forall_get?_insert t.snapshots hm }

theorem dropMap (t : s.Told d) (id : String) : (s.dropMap id).Told d := by
  have l := dropMap_leads s id
  unfold Session.dropMap at l ⊢
  split
  case h_1 => exact t
  case h_2 hm =>
    simp only [hm] at l
    have t := t.leads l
    exact { t with maps := Table.forall_get?_erase t.maps id }

theorem dropProgram (t : s.Told d) (id : String) : (s.dropProgram id).Told d := by
  have l := dropProgram_leads s id
  unfold Session.dropProgram at l ⊢
  split
  case h_1 => exact t
  case h_2 hp =>
    simp only [hp] at l
    exact { t.leads l with }

theorem dropCollection (t : s.Told d) (id : String) : (s.dropCollection id).Told d := by
  have l := dropCollection_leads s id
  unfold Session.dropCollection at l ⊢
  split
  case h_1 => exact t
  case h_2 hc =>
    simp only [hc] at l
    have t := t.leads l
    exact { t with collections := Table.forall_get?_erase t.collections id }

theorem dropSnapshot (t : s.Told d) (id : String) : (s.dropSnapshot id).Told d := by
  have l := dropSnapshot_leads s id
  unfold Session.dropSnapshot at l ⊢
  split
  case h_1 => exact t
  case h_2 hi =>
    simp only [hi] at l
    have t := t.leads l
    exact { t with snapshots := Table.forall_get?_erase t.snapshots id }

-- What is dropped if it is named.
theorem dropNamed {drop : Session → String → Session}
    (hd : ∀ {s : Session}, s.Told d → ∀ id, (drop s id).Told d) (t : s.Told d) (id : Option String) :
    ((id.map (drop s)).getD s).Told d := by
  cases id
  case none    => exact t
  case some id => exact hd t id

theorem dropAll (t : s.Told d) (map program collection snapshot : Option String) :
    (s.dropAll map program collection snapshot).2.Told d := by
  have t := t.dropNamed dropMap map
  have t := t.dropNamed dropProgram program
  have t := t.dropNamed dropCollection collection
  exact t.dropNamed dropSnapshot snapshot

theorem putMap (t : s.Told d) (id : String) {m : Map} (hm : m.Told d s.host.machine) :
    (s.putMap id m).Told d := by
  have hm := hm.leads (dropMap_leads s id) t.sane
  have t := t.dropMap id
  exact { t with maps := Table.forall_get?_insert t.maps hm }

theorem putCollection (t : s.Told d) (id : String) {c : Collection}
    (hc : FaithfulMaps s.host.machine c.maps) : (s.putCollection id c).Told d := by
  have hc := hc.leads (dropCollection_leads s id) t.sane
  have t := t.dropCollection id
  exact { t with collections := Table.forall_get?_insert t.collections hc }

theorem putSnapshot (t : s.Told d) (id : String) {i : Snapshot}
    (hi : FaithfulMaps s.host.machine i.maps) : (s.putSnapshot id i).Told d := by
  have hi := hi.leads (dropSnapshot_leads s id) t.sane
  have t := t.dropSnapshot id
  exact { t with snapshots := Table.forall_get?_insert t.snapshots hi }

theorem openMap (t : s.Told d) (hd : Map.Declared d) (id : String) {work : Attempt Map} (w : Asks Quiet work)
    (y : Yields work s.host fun m h => m.Faithful h.machine) : (s.openMap id work).2.Told d := by
  have y := ends_iff_outcome.mp ((w.ends s.host).and y)
  unfold Session.openMap
  split at y
  case h_1 m host he =>
    simp only [he]
    exact (t.leads y.left).putMap id (y.right.told hd)
  case h_2 e host he =>
    simp only [he]
    exact t.leads y.left

theorem takeSnapshot (t : s.Told d) (source : SnapshotSource) (id : Option String) :
    (s.takeSnapshot source id).2.Told d := by
  unfold Session.takeSnapshot
  split
  case h_1 => exact t
  case h_2 work hw =>
    have y := ends_iff_outcome.mp (((snapshotWork_asks hw).ends s.host).and (snapshotWork_yields hw t.sane))
    split at y
    case h_2 e host he =>
      simp only [he]
      exact t.leads y.left
    case h_1 i host he =>
      simp only [he]
      cases id
      case none    => exact t.leads (y.left.trans (i.drop_leads host))
      case some id => exact (t.leads y.left).putSnapshot id y.right

theorem onMap (t : s.Told d) (hd : Map.Declared d) (place : MapRef) (command : MapCommand) :
    (s.onMap place command).2.Told d := by
  unfold Session.onMap
  split
  case h_1 => exact t
  case h_2 m hm =>
    have k := ends_iff_editOutcome.mp ((command.run_kept (hd.place place)) (m, s.host) ⟨t.sane, t.place hm⟩)
    have l := command.run_leads m s.host
    split at k
    case h_1 he | h_2 he =>
      simp only [he] at l ⊢
      exact (t.leads l).setMap k.right

theorem onProgram (t : s.Told d) (place : ProgramRef) (command : ProgramCommand) :
    (s.onProgram place command).2.Told d := by
  unfold Session.onProgram
  split
  case h_1 => exact t
  case h_2 program _ =>
    have t := t.leads ((ProgramCommand.run_asks command).outcome program s.host)
    cases place
    case own => exact { t with }
    case ofCollection id name =>
      simp only [setProgram]
      split
      case h_1 => exact t
      case h_2 c hc =>
        exact { t with collections := Table.forall_get?_insert t.collections (t.collections _ c hc) }

theorem onCollection (t : s.Told d) (id : String) (command : CollectionCommand) :
    (s.onCollection id command).2.Told d := by
  unfold Session.onCollection
  split
  case h_1 => exact t
  case h_2 c hc =>
    have l := (CollectionCommand.run_asks command).outcome c s.host
    have k := ends_iff_editOutcome.mp (Collection.run_mirrored command (c, s.host) ⟨t.sane, t.collections id c hc⟩)
    split at k
    case h_1 he | h_2 he =>
      simp only [he] at l ⊢
      have t := t.leads l
      exact { t with collections := Table.forall_get?_insert t.collections k.right }

theorem onFiles (t : s.Told d) (work : Files.Tree → Except CallError Files.Tree) :
    (s.onFiles work).2.Told d := by
  have l := onFiles_leads (s := s) work
  unfold Session.onFiles onMachine at l ⊢
  split
  case h_1 => exact t
  case h_2 hm =>
    simp only [hm] at l
    exact t.leads l

-- One case for each command. What is asked by others does not make a map forget what it was made as.
theorem run (t : s.Told d) (hd : Map.Declared d) {c : Command} (hc : c.Fair s)
    (hn : ∀ id m, c = .newMap id m → d m) : (s.run c).2.Told d := by
  cases c
  case newMap id m =>
    have hu : m.handle = .unset := hc.plain
    exact t.putMap id (Map.told_of_not_live (hn id m rfl) fun fd hm => by simp [hu] at hm)
  case openMap id path => exact t.openMap hd id (Map.ofPath_asks path) (Map.ofPath_yields path t.sane)
  case adoptMap | fault => exact hc.plain.elim
  case onMap          => exact t.onMap hd ..
  case newProgram id _ => exact { t.dropProgram id with }
  case onProgram      => exact t.onProgram ..
  case newCollection id _ => exact t.putCollection id .empty
  case onCollection   => exact t.onCollection ..
  case snapshot       =>
    simp only [Session.run]
    split
    case isTrue  => exact t.takeSnapshot ..
    case isFalse => exact t
  case relocate | createdMaps | list => exact t
  case drop           => exact t.dropAll ..
  case reportKind fd number => exact absurd rfl (hc.honest fd number)
  case request r      => exact t.leads (p := fun _ => True) (.perform trivial)
  case makeDirectory | write | remove => exact t.onFiles _

end Told

namespace Faithful

variable {s : Session}

theorem map (f : s.Faithful) {place : MapRef} {m : Map} (h : s.map? place = some m) :
    m.Faithful s.host.machine := by
  have t := (f.told Map.declared_sized).place h
  cases place <;> exact t.faithful t.declared

theorem run (f : s.Faithful) {c : Command} (hc : c.Genuine) (hs : c.Sized) : (s.run c).2.Faithful := by
  refine ((f.told Map.declared_sized).run Map.declared_sized (hc.fair s) ?_).faithful
  rintro id m rfl
  exact hs

end Faithful

end Session

end EbpfManager
