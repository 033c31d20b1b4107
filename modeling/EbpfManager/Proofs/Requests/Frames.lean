import EbpfManager.Proofs.Handles.Requests
import EbpfManager.Proofs.Kernel.Entries
import EbpfManager.Proofs.Requests.Sessions

namespace EbpfManager

variable {p : Request → Prop} {id : Nat} {map : KernelMap}

namespace Machine.MapsChange

variable {m : Machine} {r : Request} {maps : Table Nat KernelMap}

-- Only the entries of a map can change.
theorem info (c : m.MapsChange r maps) (hc : m.Consistent) (h : m.maps.get? id = some map) :
    ∃ map', maps.get? id = some map' ∧ map'.info = map.info ∧ map'.kind = map.kind := by
  -- A map in the place of one that differs in its entries.
  have set {id' map' entries} (hm : m.maps.get? id' = some map') :
      ∃ map'', (m.maps.insert id' { map' with entries }).get? id = some map'' ∧
        map''.info = map.info ∧ map''.kind = map.kind := by
    rw [Table.get?_insert]
    split
    case isTrue he =>
      subst he
      cases hm.symm.trans h
      exact ⟨_, rfl, rfl, rfl⟩
    case isFalse => exact ⟨map, h, rfl, rfl⟩
  cases c
  case same => exact ⟨map, h, rfl, rfl⟩
  case create =>
    have hne : m.lastId + 1 ≠ id := by have := hc.mapNumber h; omega
    exact ⟨map, by rw [Table.get?_insert, if_neg hne, h], rfl, rfl⟩
  case update hm _ _ _ _ => exact set (mapAt_eq_ok hm).right
  case delete hm _     => exact set (mapAt_eq_ok hm).right

theorem of_quiet (c : m.MapsChange r maps) (hc : m.Consistent) (hr : r.Quiet)
    (h : m.maps.get? id = some map) : maps.get? id = some map := by
  cases c
  case same => exact h
  case create =>
    have hne : m.lastId + 1 ≠ id := by have := hc.mapNumber h; omega
    rw [Table.get?_insert, if_neg hne, h]
  case update | delete => exact hr.elim

-- A map that was not there has been made.
theorem new_of_quiet (c : m.MapsChange r maps) (hr : r.Quiet) (h : maps.get? id = some map) :
    m.maps.get? id = some map ∨ map.entries = initialEntries map.shape := by
  cases c
  case same => exact .inl h
  case create a _ =>
    rw [Table.get?_insert] at h
    split at h
    case isTrue  => cases h; exact .inr rfl
    case isFalse => exact .inl h
  case update | delete => exact hr.elim

theorem of_reads {owner : Map} (c : m.MapsChange r maps) (hr : r.Reads owner) : maps = m.maps := by
  cases c
  case same                       => rfl
  case create | update | delete => exact hr.elim

theorem of_accesses {owner : Map} {fd : Fd} (c : m.MapsChange r maps) (hr : r.Accesses owner)
    (ho : owner.handle = .live fd) (hn : m.handles.get? fd ≠ some (.map id)) :
    maps.get? id = m.maps.get? id := by
  -- The map that is written to is the one that the handle is open on.
  have set {fd' id' map' map''} (hr : owner.handle = .live fd') (hm : m.mapAt fd' = .ok (id', map')) :
      (m.maps.insert id' map'').get? id = m.maps.get? id := by
    cases ho.symm.trans hr
    have hne : id' ≠ id := fun he => hn (he ▸ (mapAt_eq_ok hm).left)
    rw [Table.get?_insert, if_neg hne]
  cases c
  case same => rfl
  case create => exact hr.elim
  case update hm _ _ _ _ => exact set hr hm
  case delete hm _     => exact set hr hm

end Machine.MapsChange

-- Requests about entries open and close nothing.
theorem Machine.handles_of_accesses (m : Machine) {r : Request} {owner : Map} (hr : r.Accesses owner) :
    (m.answer r).2.handles = m.handles := by
  cases r
  case mapLookup | mapNextKey => rfl
  case mapUpdate fd key value flags =>
    cases h : m.mapUpdate fd key value flags
    case error => simp [answer, settle, h]
    case ok p =>
      obtain ⟨_, _, _, _, _, _, _, _, he⟩ := mapUpdate_eq_ok h
      simp [answer, settle, h, he, setMap]
  case mapDelete fd key =>
    cases h : m.mapDelete fd key
    case error => simp [answer, settle, h]
    case ok p =>
      obtain ⟨_, _, _, _, he⟩ := mapDelete_eq_ok h
      simp [answer, settle, h, he, setMap]
  all_goals exact hr.elim

-- `m'` is `m` after some work, and after reports of other kinds: a map stays what it was made as.
structure Machine.Retains (m m' : Machine) : Prop where
  keeps : m.Keeps m'
  shape {id : Nat} {map : KernelMap} : m.maps.get? id = some map →
    ∃ map', m'.maps.get? id = some map' ∧ map'.shape = map.shape

-- Only what is reported changes, and what is not known says nothing.
theorem Machine.retains_of_reportKind {m m' : Machine} {fd : Fd} {number : Nat} (c : m.Consistent)
    (h : m.reportKind fd number = .ok m') : m.Retains m' := by
  refine ⟨(c.reportKind h).keeps, fun {id map} hm => ?_⟩
  obtain ⟨id', map', hm', rfl⟩ := reportKind_eq_ok h
  simp only [setMap, Table.get?_insert]
  split
  case isFalse => exact ⟨map, hm, rfl⟩
  case isTrue he =>
    subst he
    cases hm.symm.trans (mapAt_eq_ok hm').right
    exact ⟨_, rfl, rfl⟩

theorem Machine.MapsWellFormed.reportKind {m m' : Machine} {fd : Fd} {number : Nat} (w : m.MapsWellFormed)
    (hn : MapKind.ofNumber? number = none) (h : m.reportKind fd number = .ok m') : m'.MapsWellFormed := by
  obtain ⟨id, map, hm, rfl⟩ := reportKind_eq_ok h
  have w' := w id map (mapAt_eq_ok hm).right
  exact Table.forall_get?_insert w { w' with number := fun hk => by cases hn.symm.trans hk }

-- A host on which nothing is out of order.
structure Host.Sane (h : Host) : Prop where
  faultless  : h.faults = []
  consistent : h.machine.Consistent
  maps       : h.machine.MapsWellFormed

namespace Host

variable {h h' : Host}

theorem sane_new (files : Files.Tree) : Sane { machine := { files } } where
  faultless  := rfl
  consistent := Machine.consistent_new files
  maps _ _ h := by cases h

theorem Sane.reply (o : h.Sane) (r : Request) : (h.perform r).1 = (h.machine.answer r).1 := by
  rw [perform_of_faults_eq_nil r o.faultless]

theorem Sane.machine (o : h.Sane) (r : Request) : (h.perform r).2.machine = (h.machine.answer r).2 := by
  rw [perform_of_faults_eq_nil r o.faultless]

namespace Leads

theorem consistent (l : h.Leads p h') (hf : h.faults = []) (c : h.machine.Consistent) :
    h'.machine.Consistent :=
  l.keep hf (fun _ r _ c => (c.answer r).elim fun _ b => b.consistent)
    (fun _ files c => (c.setFiles files).consistent) c

theorem sane (l : h.Leads p h') (o : h.Sane) : h'.Sane where
  faultless  := l.faultless o.faultless
  consistent := l.consistent o.faultless o.consistent
  maps       := l.keep o.faultless (fun _ r _ w => w.answer r) (fun _ _ => id) o.maps

-- What every request and every change of files keeps on a consistent machine is kept.
theorem keep_consistent {k : Machine → Prop} (l : h.Leads p h') (o : h.Sane)
    (answer : ∀ m r, m.Consistent → p r → k m → k (m.answer r).2)
    (files : ∀ m files, m.Consistent → k m → k { m with files }) (hk : k h.machine) :
    k h'.machine := by
  refine (l.keep (k := fun m => m.Consistent ∧ k m) o.faultless ?_ ?_ ⟨o.consistent, hk⟩).right
  case refine_1 =>
    exact fun m r hr ⟨c, hk⟩ => ⟨(c.answer r).elim fun _ b => b.consistent, answer m r c hr hk⟩
  case refine_2 =>
    exact fun m fs ⟨c, hk⟩ => ⟨(c.setFiles fs).consistent, files m fs c hk⟩

theorem keeps (l : h.Leads p h') (o : h.Sane) : h.machine.Keeps h'.machine :=
  l.keep_consistent o (fun _ r c _ k => (c.answer r).elim fun _ b => k.trans b.keeps)
    (fun _ files c k => k.trans (c.setFiles files).keeps) (.refl _)

theorem info (l : h.Leads p h') (o : h.Sane) (hm : h.machine.maps.get? id = some map) :
    ∃ map', h'.machine.maps.get? id = some map' ∧ map'.info = map.info ∧ map'.kind = map.kind := by
  refine l.keep_consistent (k := fun m => ∃ map', m.maps.get? id = some map' ∧
    map'.info = map.info ∧ map'.kind = map.kind) o ?_ (fun _ _ _ he => he) ⟨map, hm, rfl, rfl⟩
  intro m r c _ ⟨map', hm, hi, hk⟩
  obtain ⟨map'', hm', hi', hk'⟩ := (m.mapsChange r).info c hm
  exact ⟨map'', hm', hi'.trans hi, hk'.trans hk⟩

theorem retains (l : h.Leads p h') (o : h.Sane) : h.machine.Retains h'.machine where
  keeps := l.keeps o
  shape hm := by
    obtain ⟨map', hm', hi, hk⟩ := l.info o hm
    exact ⟨map', hm', by rw [KernelMap.shape, hi, hk, KernelMap.shape]⟩

theorem of_quiet (l : h.Leads Request.Quiet h') (o : h.Sane)
    (hm : h.machine.maps.get? id = some map) : h'.machine.maps.get? id = some map :=
  l.keep_consistent (k := fun m => m.maps.get? id = some map) o
    (fun m r c hr hm => (m.mapsChange r).of_quiet c hr hm) (fun _ _ _ hm => hm) hm

theorem new_of_quiet (l : h.Leads Request.Quiet h') (hf : h.faults = [])
    (hn : h.machine.maps.get? id = none) (hm : h'.machine.maps.get? id = some map) :
    map.entries = Machine.initialEntries map.shape := by
  refine l.keep (k := fun m => ∀ map, m.maps.get? id = some map →
    map.entries = Machine.initialEntries map.shape) hf ?_ (fun _ _ hk => hk) (by simp [hn]) map hm
  intro m r hr hk map hm
  obtain hm | he := (m.mapsChange r).new_of_quiet hr hm
  case inl => exact hk map hm
  case inr => exact he

variable {owner : Map}

theorem of_reads (l : h.Leads (Request.Reads owner) h') (hf : h.faults = []) :
    h'.machine.maps = h.machine.maps :=
  l.keep (k := fun m => m.maps = h.machine.maps) hf
    (fun m r hr hk => ((m.mapsChange r).of_reads hr).trans hk) (fun _ _ hk => hk) rfl

theorem handles_of_accesses (l : h.Leads (Request.Accesses owner) h') (hf : h.faults = []) :
    h'.machine.handles = h.machine.handles :=
  l.keep (k := fun m => m.handles = h.machine.handles) hf
    (fun m _ hr hk => (m.handles_of_accesses hr).trans hk) (fun _ _ hk => hk) rfl

theorem of_accesses {fd : Fd} (l : h.Leads (Request.Accesses owner) h') (hf : h.faults = [])
    (ho : owner.handle = .live fd) (hn : h.machine.handles.get? fd ≠ some (.map id)) :
    h'.machine.maps.get? id = h.machine.maps.get? id := by
  refine (l.keep (k := fun m => m.handles = h.machine.handles ∧
    m.maps.get? id = h.machine.maps.get? id) hf ?_ (fun _ _ hk => hk) ⟨rfl, rfl⟩).right
  intro m r hr ⟨hh, hk⟩
  exact ⟨(m.handles_of_accesses hr).trans hh,
    ((m.mapsChange r).of_accesses hr ho (hh ▸ hn)).trans hk⟩

end Leads

end Host

end EbpfManager
