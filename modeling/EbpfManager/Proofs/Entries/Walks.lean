import EbpfManager.Proofs.Entries.Cursors
import EbpfManager.Proofs.Entries.Lookups
import EbpfManager.Proofs.Entries.Persistence
import EbpfManager.Proofs.Entries.Widths

namespace EbpfManager

open Request (Spares)

variable {α : Type}

-- Work on entries closes nothing.
theorem Request.Accesses.spares {held : Multiset Holding} {r : Request} {m : Map} (hr : r.Accesses m) :
    r.Spares held := by
  rintro fd kind rfl
  exact hr.elim

-- The entries of a map of the kernel.
def Machine.table (machine : Machine) (id : Nat) : Table Bytes Bytes :=
  ((machine.maps.get? id).map KernelMap.entries).getD .empty

namespace Map

-- The visits of a walk over a map of the kernel. Between them anything may be done by others, who leave the
-- handle of the map open.
inductive Walks (m : Map) (id : Nat) (step : Cursor → Host → Option (Except Error α) × Cursor × Host) :
    Cursor → Host → List (Visit α) → Prop
  | stop (c : Cursor) (h : Host) : Walks m id step c h []
  | visit {c : Cursor} {h : Host} {visits : List (Visit α)} :
      Walks m id step (step c h).2.1 (step c h).2.2 visits →
      Walks m id step c h (⟨h.machine.table id, (step c h).1⟩ :: visits)
  | others {c : Cursor} {h h' : Host} {visits : List (Visit α)} :
      h.Leads (Spares m.held) h' → Walks m id step c h' visits → Walks m id step c h visits

def runEach (edits : List (Map × MapCommand)) (h : Host) : Host :=
  edits.foldl (fun h edit => (edit.2.run.outcome edit.1 h).2.2) h

-- The visits of a walk with commands to maps before each of them.
def interleave (id : Nat) (step : Cursor → Host → Option (Except Error α) × Cursor × Host)
    (c : Cursor) (h : Host) :
    List (List (Map × MapCommand)) → List (Visit α)
  | []             => []
  | edits :: turns =>
    let h := runEach edits h
    ⟨h.machine.table id, (step c h).1⟩ :: interleave id step (step c h).2.1 (step c h).2.2 turns

variable {m : Map} {id : Nat} {map : KernelMap} {h h' : Host} {c : Cursor}

namespace Sees

theorem harbors (o : m.Sees id map h) : h.Harbors m.held where
  faultless  := o.sane.faultless
  consistent := o.sane.consistent
  held := by
    obtain ⟨fd, hm, ho⟩ := o.handle
    rw [held, hm, Handle.held_live]
    exact Multiset.singleton_le.mpr <| (Machine.mem_held_iff o.sane.consistent).mpr ⟨_, ho, rfl⟩

-- Whatever others do, the map stays open on the map of the kernel.
theorem others (o : m.Sees id map h) (l : h.Leads (Spares m.held) h') : ∃ map', m.Sees id map' h' := by
  obtain ⟨fd, hm, ho⟩ := o.handle
  obtain ⟨map', ht, hi, hk⟩ := l.info o.sane o.there
  obtain ⟨object, ho', _⟩ := (o.harbors.leads l).get? (show (fd, .map) ∈ m.held by simp [held, hm])
  cases ho.symm.trans ((l.keeps o.sane).handle (o.sane.consistent.below ho) ho')
  exact ⟨map', l.sane o.sane, ⟨fd, hm, ho'⟩, ht, o.mirrors.congr hi hk⟩

theorem still (o : m.Sees id map h) (w : h.Still h') : m.Sees id map h' where
  sane    := ⟨w.faultless, w.machine ▸ o.sane.consistent, w.machine ▸ o.sane.maps⟩
  handle  := w.machine ▸ o.handle
  there   := w.machine ▸ o.there
  mirrors := o.mirrors

theorem nextKey_eq_ok (o : m.Sees id map h) {fd : Fd} {key next : Option Bytes} (hm : m.handle = .live fd)
    (hk : h.machine.mapNextKey fd key = .ok next) (hl : ∀ last, key = some last → last.length = m.keySize) :
    m.nextKey key h = .ok next (h.perform (.mapNextKey fd key m.keySize)).2 := by
  have ask : Ends (Attempt.perform (.mapNextKey fd key m.keySize) >>= Attempt.accept (.syscall .mapNextKey)) h
      (fun next' h' => next' = next ∧ h' = (h.perform (.mapNextKey fd key m.keySize)).2) fun _ _ => False := by
    have hr := o.sane.reply (.mapNextKey fd key m.keySize)
    simp only [Machine.answer, hk] at hr
    rw [ends_bind, ends_perform, ends_accept, hr]
    exact ⟨rfl, rfl⟩
  refine Ends.eq_ok ?_
  unfold nextKey
  simp only [liveFd, hm]
  cases key
  case none => exact ask
  case some last =>
    simp only
    split
    case isTrue hn => exact absurd (hl last rfl) hn
    case isFalse   => exact ask

-- The kernel gives the key of the first entry that is still to come.
theorem nextKey_eq (o : m.Sees id map h) (hd : c.done = false)
    (hl : ∀ last, c.last = some last → last.length = m.keySize) :
    ∃ h', m.nextKey c.last h = .ok ((c.rest map.entries).head?.map Prod.fst) h' ∧ h.Still h' := by
  obtain ⟨fd, hm, ho⟩ := o.handle
  refine ⟨_, o.nextKey_eq_ok hm ?_ hl, (Host.Still.refl o.sane.faultless).perform rfl⟩
  simp only [Machine.mapNextKey, Machine.mapAt_eq ho o.there, Cursor.rest, hd, Cursor.above]
  cases c.last
  case none      => simp [Table.keys, List.head?_map, bind, Except.bind, pure, Except.pure]
  case some last => simp [Table.next?, List.head?_filter, bind, Except.bind, pure, Except.pure]

theorem valueAt_eq (o : m.Sees id map h) {key value : Bytes} (hg : map.entries.get? key = some value) :
    ∃ h', m.valueAt key h = .ok value h' ∧ h.Still h' := by
  obtain ⟨fd, hm, ho⟩ := o.handle
  have w : Ends (m.valueAt key) h (fun value' h' => value' = value ∧ h.Still h') fun _ _ => False := by
    unfold valueAt
    simp only [liveFd, hm, ends_bind, ends_except]
    refine ((o.lookupOctets hm (o.wellFormed.key hg)).and
      (lookupOctets_still fd key h (.refl o.sane.faultless))).imp ?_ ?_
    case refine_1 =>
      rintro value' h' ⟨⟨hg', _⟩, w⟩
      exact ⟨Option.some.inj (hg'.symm.trans hg), w⟩
    case refine_2 =>
      rintro _ _ ⟨⟨hn, _⟩, _⟩
      simp [hn] at hg
  cases he : m.valueAt key h
  case ok value' h' =>
    simp only [Ends, he] at w
    exact ⟨h', by rw [w.left], w.right⟩
  case error => simp [Ends, he] at w

end Sees

-- That a walk comes to the first entry that is still to come.
def Scans (m : Map) (id : Nat) (pick : Bytes × Bytes → α)
    (step : Cursor → Host → Option (Except Error α) × Cursor × Host) : Prop :=
  ∀ {map : KernelMap} {h : Host} {c : Cursor}, m.Sees id map h →
    (∀ last, c.last = some last → last.length = m.keySize) →
    ∃ h', h.Still h' ∧ step c h =
      match c.rest map.entries with
      | []     => (none, { c with done := true }, h')
      | e :: _ => (some (.ok (pick e)), { c with last := some e.1 }, h')

theorem stepKey_scans (m : Map) (id : Nat) : m.Scans id Prod.fst m.stepKey := by
  intro map h c o hl
  cases hd : c.done
  case true =>
    refine ⟨h, .refl o.sane.faultless, ?_⟩
    have he : c = { c with done := true } := by rw [← hd]
    rw [stepKey_done hd, Cursor.rest, if_pos hd, ← he]
  case false =>
    obtain ⟨h', hn, w⟩ := o.nextKey_eq hd hl
    refine ⟨h', w, ?_⟩
    simp only [stepKey, hd, hn]
    cases c.rest map.entries <;> rfl

-- The entry is still there when its value is asked for.
theorem stepEntry_scans (m : Map) (id : Nat) : m.Scans id (fun e => e) m.stepEntry := by
  intro map h c o hl
  obtain ⟨h₁, w₁, hk⟩ := stepKey_scans m id o hl
  unfold stepEntry stepEntryWithin
  rw [hk]
  cases hr : c.rest map.entries
  case nil => exact ⟨h₁, w₁, rfl⟩
  case cons e es =>
    have o₁ := o.still w₁
    have he : map.entries.get? e.1 = some e.2 :=
      o.wellFormed.sorted.get?_of_mem (Cursor.mem_of_rest_eq_cons hr).right.left
    obtain ⟨h₂, hv, w₂⟩ := o₁.valueAt_eq he
    refine ⟨h₂, ⟨w₂.faultless, w₂.machine.trans w₁.machine⟩, ?_⟩
    simp only [hv]

namespace Walks

variable {pick : Bytes × Bytes → α} {step : Cursor → Host → Option (Except Error α) × Cursor × Host}
  {visits : List (Visit α)}

-- Entries are looked up, written and taken out by others, through any map.
theorem after {edits : List (Map × MapCommand)} (he : ∀ edit ∈ edits, edit.2.Accesses)
    (w : m.Walks id step c (runEach edits h) visits) : m.Walks id step c h visits := by
  induction edits generalizing h
  case nil => exact w
  case cons edit edits ih =>
    obtain ⟨hc, he⟩ := List.forall_mem_cons.mp he
    exact .others ((edit.2.run_accesses hc edit.1 h).mono fun _ hr => hr.spares) (ih he w)

theorem interleaved {turns : List (List (Map × MapCommand))}
    (ht : ∀ edits ∈ turns, ∀ edit ∈ edits, edit.2.Accesses) :
    m.Walks id step c h (interleave id step c h turns) := by
  induction turns generalizing c h
  case nil => exact .stop c h
  case cons edits turns ih =>
    obtain ⟨he, ht⟩ := List.forall_mem_cons.mp ht
    exact .after he (.visit (ih ht))

theorem toVisits (hs : m.Scans id pick step) (w : m.Walks id step c h visits) (o : m.Sees id map h)
    (hl : ∀ last, c.last = some last → last.length = m.keySize) : Cursor.Visits pick c visits := by
  induction w generalizing map
  case stop => exact .stop _
  case others l _ ih =>
    obtain ⟨map', o'⟩ := o.others l
    exact ih o' hl
  case visit c h visits _ ih =>
    have ht : h.machine.table id = map.entries := by simp [Machine.table, o.there]
    obtain ⟨h', w, he⟩ := hs o hl
    have s : map.entries.Sorted := o.wellFormed.sorted
    rw [ht]
    cases hr : c.rest map.entries
    case nil =>
      simp only [hr] at he
      rw [he] at ih ⊢
      exact .done s hr (ih (o.still w) hl)
    case cons e es =>
      simp only [hr] at he
      rw [he] at ih ⊢
      refine .item s hr (ih (o.still w) fun last h => ?_)
      obtain rfl := Option.some.inj h
      have hg := s.get?_of_mem (Cursor.mem_of_rest_eq_cons hr).right.left
      exact (o.wellFormed.key hg).trans o.mirrors.keySize.symm

end Walks

end Map

namespace Session

variable {s : Session} {place : MapRef} {m : Map} {id : Nat}

-- Between any two steps of a walk anything may be asked of the kernel, through whichever handle, as long as the
-- handle of the map stays open.
theorem walks_orderly (r : s.Reached) (o : s.Opens place m id) :
    (∀ {visits : List (Visit Bytes)}, m.Walks id m.stepKey {} s.host visits →
      Visit.Orderly Prod.fst (fun key => key) visits) ∧
    ∀ {visits : List (Visit (Bytes × Bytes))}, m.Walks id m.stepEntry {} s.host visits →
      Visit.Orderly (fun entry => entry) Prod.fst visits := by
  obtain ⟨fd, _, hg⟩ := isOpenOn_iff.mp o.isOpenOn
  obtain ⟨map, hm⟩ := r.told.sane.consistent.handle hg
  have o : m.Sees id map s.host := o.sees r.told hm
  exact ⟨fun w => (w.toVisits (m.stepKey_scans id) o nofun).orderly fun _ => rfl,
    fun w => (w.toVisits (m.stepEntry_scans id) o nofun).orderly fun _ => rfl⟩

-- The entry that has been come to is taken out, and one is put in above it.
theorem walks_orderly_of_hits :
    let m : Map := { hits with cpus := 2, handle := .live 3 }
    let slots : Bytes := [111, 110, 101, 0, 0, 0, 0, 0, 111, 110, 101, 0, 0, 0, 0, 0]
    let other : Bytes := [7, 0, 0, 0, 0, 0, 0, 0, 7, 0, 0, 0, 0, 0, 0, 0]
    let visits := Map.interleave 1 m.stepEntry {} withHits.host
      [[], [(m, .delete (.integer 1)), (m, .upsert (.integer 2) (.octets [7, 0, 0, 0, 0]))], []]
    withHits.Opens (.own "hits") m 1 ∧ m.Walks 1 m.stepEntry {} withHits.host visits ∧
      visits.map (·.item) = [some (.ok ([1, 0, 0, 0], slots)), some (.ok ([2, 0, 0, 0], other)), none] ∧
      Visit.Orderly (fun entry => entry) Prod.fst visits := by
  intro m slots other visits
  have o : withHits.Opens (.own "hits") m 1 :=
    ⟨by decide +kernel, ⟨by decide, by decide, by decide⟩, isOpenOn_iff.mpr ⟨3, rfl, by decide +kernel⟩⟩
  have w : m.Walks 1 m.stepEntry {} withHits.host visits :=
    .interleaved (by simp [MapCommand.Accesses, or_imp, forall_and])
  exact ⟨o, w, by decide +kernel, (walks_orderly withHits_reached o).right w⟩

end Session

end EbpfManager
