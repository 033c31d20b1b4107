import EbpfManager.Proofs.Entries.Calls
import EbpfManager.Proofs.Entries.Sessions

namespace EbpfManager

theorem Host.Harbors.mono {h : Host} {held held' : Multiset Holding} (b : h.Harbors held) (hl : held' ≤ held) :
    h.Harbors held' where
  faultless  := b.faultless
  consistent := b.consistent
  held       := hl.trans b.held

-- That no map reports another kind than it is of.
def Machine.Honest (machine : Machine) : Prop :=
  ∀ id map, machine.maps.get? id = some map → map.info.kindNumber = map.kind.number

theorem Machine.Honest.answer {machine : Machine} (n : machine.Honest) (r : Request) :
    (machine.answer r).2.Honest := by
  have c := machine.mapsChange r
  unfold Honest
  generalize (machine.answer r).2.maps = maps at c
  cases c
  case same                  => exact n
  case create                => exact Table.forall_get?_insert n rfl
  case update id map hm _ _ _ _ => exact Table.forall_get?_insert n (n id map (mapAt_eq_ok hm).right)
  case delete id map hm _    => exact Table.forall_get?_insert n (n id map (mapAt_eq_ok hm).right)

-- The sizes that a map has are reported just if they can be told.
theorem Map.Declares.agrees_iff {m : Map} {map : KernelMap} (r : m.Declares map)
    (hn : map.info.kindNumber = map.kind.number) : m.Agrees map.info ↔ m.Sized := by
  constructor
  case mp =>
    rintro ⟨_, hk, hv, he⟩
    exact ⟨hk ▸ map.info.keySize.toNat_lt, hv ▸ map.info.valueSize.toNat_lt,
      he ▸ map.info.maxEntries.toNat_lt⟩
  case mpr =>
    intro s
    have r := r.mirrors s
    exact ⟨r.kind ▸ hn, r.keySize.symm, r.valueSize.symm, r.maxEntries.symm⟩

namespace Session

variable {s : Session} {place : MapRef} {m : Map} {fd : Fd}

theorem Settled.map (o : s.Settled) (h : s.map? place = some m) : s.host.Harbors m.held := by
  obtain ⟨others, he, _⟩ := held_setMap o.sound h
  exact o.harbors.mono (he ▸ Multiset.le_add_right ..)

theorem Reached.told (r : s.Reached) : s.Told fun _ => True := by
  -- By induction on the run.
  induction r
  case fresh files     => exact (faithful_fresh files).told Map.declared_any
  case run c hc _ ih => exact ih.run Map.declared_any hc fun _ _ _ => trivial

theorem Reached.honest (r : s.Reached) : s.host.machine.Honest := by
  induction r
  case fresh          => exact fun _ _ h => by cases h
  case run c hc r ih =>
    exact (leads_of_fair hc).keep r.told.sane.faultless (fun _ r _ n => n.answer r) (fun _ _ => id) ih

-- The handle of a map is open on a map of the kernel of which the kernel has been told.
theorem Reached.open (r : s.Reached) (h : s.map? place = some m) (hl : m.handle = .live fd) :
    ∃ id map, s.host.machine.handles.get? fd = some (.map id) ∧ s.host.machine.maps.get? id = some map ∧
      m.Declares map := by
  have hm : (fd, HandleKind.map) ∈ m.held := by simp [Map.held, hl]
  obtain ⟨object, hg, hk⟩ := (r.settled.map h).get? hm
  cases object <;> cases hk
  case map id =>
    obtain ⟨map, hm⟩ := r.told.sane.consistent.handle hg
    exact ⟨id, map, hg, hm, ((r.told.place h).declares hl).holds hg hm⟩

structure Shapes (s : Session) : Prop where
  -- About every map that is open the kernel reports the kind and 32 bits of each size, which is what the
  -- map declares just if the kernel can be told of its sizes.
  reported {place : MapRef} {m : Map} {fd : Fd} : s.map? place = some m → m.handle = .live fd →
    ∃ info, (s.host.machine.answer (.mapInfo fd)).1 = .ok info ∧ info.kindNumber = m.kind.number ∧
      info.keySize = .ofNat m.keySize ∧ info.valueSize = .ofNat m.valueSize ∧
      info.maxEntries = .ofNat m.maxEntries ∧ (m.Agrees info ↔ m.Sized)
  -- It can, unless the map was declared by itself.
  collection {id name : String} {m : Map} : s.map? (.ofCollection id name) = some m → m.Sized
  snapshot {id key : String} {m : Map} : s.map? (.ofSnapshot id key) = some m → m.Sized
  path {id : String} {path : Path} {m : Map} : (s.run (.openMap id path)).1 = .done (.map m) → m.Sized

theorem sized_of_openMap {id : String} {path : Path} (o : s.host.Sane)
    (h : (s.run (.openMap id path)).1 = .done (.map m)) : m.Sized := by
  have y := ends_iff_outcome.mp (Map.ofPath_yields path o)
  simp only [run, Session.openMap] at h
  split at y
  case h_1 hr =>
    simp only [hr] at h
    cases h
    exact y.sized
  case h_2 hr =>
    simp only [hr] at h
    cases h

-- The kernel is told 32 bits of each size. A map that was declared with a larger size can be opened, too, and the
-- kernel then reports another size than the map has.
theorem shapes (r : s.Reached) : s.Shapes where
  reported h hl := by
    obtain ⟨id, map, hg, hm, d⟩ := r.open h hl
    have hn := r.honest id map hm
    refine ⟨map.info, ?_, ?_, d.keySize.symm, d.valueSize.symm, d.maxEntries.symm, d.agrees_iff hn⟩
    case refine_1 => rw [Machine.answer, Machine.mapAt_eq hg hm]; rfl
    case refine_2 => exact d.kind ▸ hn
  collection h := (r.told.place h).declared
  snapshot h   := (r.told.place h).declared
  path h       := sized_of_openMap r.told.sane h

-- A map with keys of 4294967300 octets, of which the kernel is told to take 4.
def wide : Map :=
  ⟨"wide", .hash, 4294967300, 8, 16, 0, none, none, 1, .unset⟩

def withWide : Session :=
  [.newMap "wide" wide, .onMap (.own "wide") .create].foldl (fun s c => (s.run c).2) {}

theorem withWide_reached : withWide.Reached :=
  .run _ ⟨trivial, nofun⟩ <| .run _ ⟨rfl, nofun⟩ <| .fresh .empty

theorem shapes_of_wide : withWide.map? (.own "wide") = some { wide with handle := .live 3 } ∧ withWide.Shapes :=
  ⟨by decide +kernel, shapes withWide_reached⟩

theorem wide_reported_narrow : withWide.Reached ∧
    withWide.map? (.own "wide") = some { wide with handle := .live 3 } ∧
    ∃ info, (withWide.host.machine.answer (.mapInfo 3)).1 = .ok info ∧ info.keySize = 4 ∧ ¬wide.Agrees info :=
  ⟨withWide_reached, by decide +kernel, ⟨"wide", 1, 1, 4, 8, 16, 0⟩, by rfl, rfl, by decide⟩

end Session

end EbpfManager
