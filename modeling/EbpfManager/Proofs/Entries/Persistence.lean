import EbpfManager.Proofs.Entries.History
import EbpfManager.Proofs.Entries.Shapes
import EbpfManager.Proofs.Lifecycle.Maps

namespace EbpfManager

open Attempt (Asks)

variable {id : Nat} {key : Bytes} {found : Option Bytes} {h h' : Host}

-- That a request is about an entry, to set it or to take it out.
def Request.Edits (key : Bytes) : Request → Prop
  | .mapUpdate _ key' _ _ | .mapDelete _ key' => key' = key
  | _                                         => False

namespace Machine

variable {m : Machine} {r : Request}

-- That it is about an entry of a map, and something comes of it.
def Writes (m : Machine) (id : Nat) (key : Bytes) (r : Request) : Prop :=
  r.Edits key ∧ (∃ fd, r.fd? = some fd ∧ m.handles.get? fd = some (.map id)) ∧ (m.answer r).2 ≠ m

-- What is found under a key, in a map that may be made yet.
structure Finds (maps : Table Nat KernelMap) (id : Nat) (key : Bytes) (found : Option Bytes) : Prop where
  absent : maps.get? id = none → found = none
  entry {map : KernelMap} : maps.get? id = some map → ¬map.Slotted → map.entries.get? key = found

theorem Finds.congr {maps maps' : Table Nat KernelMap} (f : Finds maps id key found)
    (he : maps'.get? id = maps.get? id) : Finds maps' id key found :=
  ⟨fun hn => f.absent (he ▸ hn), fun hm => f.entry (he ▸ hm)⟩

theorem Finds.insert {maps : Table Nat KernelMap} {id' : Nat} {map' : KernelMap} (f : Finds maps id key found)
    (hg : id' = id → ¬map'.Slotted → map'.entries.get? key = found) :
    Finds (maps.insert id' map') id key found := by
  refine ⟨fun hn => ?_, fun hm hs => ?_⟩
  case refine_1 =>
    rw [Table.get?_insert] at hn
    split at hn
    · cases hn
    · exact f.absent hn
  case refine_2 =>
    rw [Table.get?_insert] at hm
    split at hm
    case isTrue hi => cases hm; exact hg hi hs
    case isFalse   => exact f.entry hm hs

theorem Finds.answer (f : Finds m.maps id key found) (c : m.Consistent) (hr : ¬m.Writes id key r) :
    Finds (m.answer r).2.maps id key found := by
  by_cases he : (m.answer r).2 = m
  case pos => rwa [he]
  case neg =>
    -- A request about this entry is about another map.
    have other {fd map} (hm : m.mapAt fd = .ok (id, map)) (hf : r.fd? = some fd) : ¬r.Edits key :=
      fun hk => hr ⟨hk, ⟨fd, hf, (mapAt_eq_ok hm).left⟩, he⟩
    have ch := m.mapsChange r
    generalize (m.answer r).2.maps = maps at ch
    cases ch
    case same => exact f
    case create a _ =>
      refine f.insert fun hi hs => ?_
      have he : (m.newMap a).entries = .empty := if_neg hs
      have hn : m.maps.get? id = none := by
        by_contra hn
        obtain ⟨map, hm⟩ := Option.ne_none_iff_exists'.mp hn
        have := c.mapNumber hm
        omega
      rw [he, f.absent hn]
      rfl
    case update key' _ _ _ _ _ hm _ _ _ _ =>
      refine f.insert fun hi hs => ?_
      subst hi
      have hne : key' ≠ key := other hm rfl
      rw [Table.get?_insert, if_neg hne]
      exact f.entry (mapAt_eq_ok hm).right hs
    case delete key' _ _ hm _ =>
      refine f.insert fun hi hs => ?_
      subst hi
      have hne : key' ≠ key := other hm rfl
      rw [Table.get?_erase, if_neg hne]
      exact f.entry (mapAt_eq_ok hm).right hs

end Machine

theorem Host.Leads.finds (l : h.Leads (¬·.Edits key) h') (o : h.Sane)
    (f : Machine.Finds h.machine.maps id key found) :
    Machine.Finds h'.machine.maps id key found :=
  l.keep_consistent (k := fun m => Machine.Finds m.maps id key found) o
    (fun _ _ c hr f => f.answer c fun hw => hr hw.left) (fun _ _ _ f => f) f

-- The key whose entry a call is to set or to take out.
def EntryCall.edits? : EntryCall → Option Datum
  | .insert key _ | .update key _ | .upsert key _ | .delete key => some key
  | .lookup _                                                   => none

def EntryRecord.Writes (r : EntryRecord) (key : Bytes) : Prop :=
  (∃ answer, r.outcome = .done answer) ∧ ∃ datum, r.call.edits? = some datum ∧ datum.encode key.length = .ok key

namespace Map

variable {m : Map}

theorem encode_of_encodeKey {datum : Datum} (hk : m.encodeKey datum = .ok key) : datum.encode key.length = .ok key := by
  have he : datum.encode m.keySize = .ok key := by
    unfold encodeKey at hk
    split at hk
    case h_1 => cases hk
    case h_2 bytes he =>
      -- Keys that are taken at all are taken as they are.
      have hb : bytes = key := by
        repeat' split at hk
        all_goals cases hk
        all_goals rfl
      exact hb ▸ he
  rwa [Datum.length_of_encode he]

theorem write_spares {datum value : Datum} {flags : UpdateFlags} (hn : datum.encode key.length ≠ .ok key) :
    Asks (¬·.Edits key) (m.write datum value flags) := by
  refine asks_liveFd fun fd _ => .bindExcept fun bytes hk => .bind (.except _) fun value => ?_
  refine .guard fun _ => .bind (.perform fun he => hn ?_) fun _ => .accept ..
  cases he
  exact encode_of_encodeKey hk

theorem delete_spares {datum : Datum} (hn : datum.encode key.length ≠ .ok key) :
    Asks (¬·.Edits key) (m.delete datum) := by
  refine asks_liveFd fun fd _ => .guard fun _ => .bindExcept fun bytes hk => ?_
  refine .bind (.perform fun he => hn ?_) fun _ => .accept ..
  cases he
  exact encode_of_encodeKey hk

-- A call to set an entry or to take one out. If it fails, nothing has changed.
theorem finds_of_call {α : Type} {work : Attempt α} {a : α → Answer} {name : String} {c : EntryCall}
    {datum : Datum}
    (o : h.Sane) (f : Machine.Finds h.machine.maps id key found) (hc : c.edits? = some datum)
    (w : datum.encode key.length ≠ .ok key → Asks (¬·.Edits key) work)
    (hs : Ends work h (fun _ _ => True) fun _ => h.Still)
    (hr : ¬EntryRecord.Writes ⟨name, c, Session.outcomeOf (a <$> (work.outcome h).1)⟩ key) :
    Machine.Finds (work.outcome h).2.machine.maps id key found := by
  cases he : (work.outcome h).1
  case error => rwa [(hs.of_outcome_error he).machine]
  case ok value =>
    rw [he] at hr
    exact ((w fun hk => hr ⟨⟨_, rfl⟩, datum, hc, hk⟩).outcome h).finds o f

section Walks

variable {name : String} {edits : List (Nat × WalkEdit)}

theorem finds_editAll {es : List WalkEdit} {position : Nat} {items : List WalkItem} (o : h.Sane)
    (f : Machine.Finds h.machine.maps id key found)
    (hr : ∀ r ∈ walkRecords name edits position es ((m.editAll es h).1 ++ items), ¬r.Writes key) :
    Machine.Finds (m.editAll es h).2.machine.maps id key found ∧
      ∀ r ∈ walkRecords name edits position [] items, ¬r.Writes key := by
  induction es generalizing h
  case nil => exact ⟨f, hr⟩
  case cons e es ih =>
    obtain ⟨hr, hrs⟩ := List.forall_mem_cons.mp hr
    have f' : Machine.Finds ((m.edit e).outcome h).2.machine.maps id key found := by
      cases e
      case delete datum =>
        exact finds_of_call (a := fun _ => .nothing) o f rfl delete_spares (delete_still _ (.refl o.faultless)) hr
      case upsert datum value =>
        exact finds_of_call (a := fun _ => .nothing) o f rfl write_spares (write_still _ _ _ (.refl o.faultless)) hr
    exact ih (((m.edit_asks e).outcome h).sane o) f' hrs

theorem finds_takeEntries {bound position : Nat} {es : List WalkEdit} {c : Cursor} (o : h.Sane)
    (f : Machine.Finds h.machine.maps id key found)
    (hr : ∀ r ∈ walkRecords name edits position es (m.takeEntries edits bound position c h).1, ¬r.Writes key) :
    Machine.Finds (m.takeEntries edits bound position c h).2.machine.maps id key found := by
  induction bound generalizing position es c h
  case zero => exact f
  case succ bound ih =>
    have l : h.Leads (Request.Reads m) (m.stepEntry c h).2.2 := m.stepEntryWithin_leads ..
    unfold takeEntries at hr ⊢
    split at hr
    case h_1 he =>
      simp only [he] at l ⊢
      rwa [l.of_reads o.faultless]
    case h_2 item c' h' he =>
      simp only [he] at l ⊢
      rw [← l.of_reads o.faultless] at f
      have o' := l.sane o
      obtain ⟨f, hr⟩ := finds_editAll o' f hr
      exact ih ((m.editAll_leads _ h').sane o') f hr

end Walks

theorem finds_run {command : MapCommand} (o : h.Sane) (f : Machine.Finds h.machine.maps id key found)
    (hc : command.OnEntries)
    (hr : ∀ r ∈ command.records m.name (Session.outcomeOf (command.run.outcome m h).1), ¬r.Writes key) :
    Machine.Finds (command.run.outcome m h).2.2.machine.maps id key found := by
  cases command
  case insert | update | upsert =>
    have hr := List.forall_mem_singleton.mp hr
    simp only [MapCommand.run, MapCommand.outcome_ask] at hr ⊢
    exact finds_of_call o f rfl write_spares (write_still _ _ _ (.refl o.faultless)) hr
  case delete =>
    have hr := List.forall_mem_singleton.mp hr
    simp only [MapCommand.run, MapCommand.outcome_ask] at hr ⊢
    exact finds_of_call o f rfl delete_spares (delete_still _ (.refl o.faultless)) hr
  case lookup key' =>
    have l := MapCommand.run_reads (c := .lookup key') trivial m h
    rwa [l.of_reads o.faultless]
  case walk edits limit =>
    have hr : ∀ r ∈ walkRecords m.name edits 0 [] (m.takeEntries edits limit 0 {} h).1, ¬r.Writes key := hr
    exact finds_takeEntries o f hr
  all_goals exact hc.elim

end Map

namespace Session

variable {s s₀ : Session} {c : Command}

-- That a command sets an entry of a map of the kernel or takes it out, through whichever map.
def Writes (s : Session) (id : Nat) (key : Bytes) (c : Command) : Prop :=
  (∃ r ∈ s.records id c, r.Writes key) ∨ ∃ r, c = .request r ∧ s.host.machine.Writes id key r

theorem finds_run (t : s.Told fun _ => True) (hc : c.Fair s) (f : Machine.Finds s.host.machine.maps id key found)
    (hw : ¬s.Writes id key c) : Machine.Finds (s.run c).2.host.machine.maps id key found := by
  obtain ⟨hr, hq⟩ := not_or.mp hw
  obtain ⟨r, rfl, _, he⟩ | hg := fair_cases hc
  case inl =>
    rw [he, t.sane.machine r]
    exact f.answer t.sane.consistent fun h => hq ⟨r, rfl, h⟩
  case inr =>
    by_cases ha : c.Accesses
    case neg =>
      -- What does not concern entries cannot edit any.
      refine ((run_quiet hg ha).mono fun r hr he => ?_).finds t.sane f
      cases r <;> first | exact he.elim | exact hr.elim
    case pos =>
      cases c
      case onMap place command =>
        cases hm : s.map? place
        case none => simpa only [run, onMap, hm] using f
        case some m =>
          simp only [run, host_onMap hm]
          by_cases ho : s.IsOpenOn m id
          case neg => exact f.congr (get?_of_not_isOpenOn t.sane ho ha)
          case pos =>
            by_cases hc : command.OnEntries
            case neg =>
              have hr : command.Reads := by cases command <;> first | exact ha | exact absurd trivial hc
              rwa [(command.run_reads hr m s.host).of_reads t.sane.faultless]
            case pos =>
              refine Map.finds_run t.sane f hc fun r hm' hw => hr ⟨r, ?_, hw⟩
              simpa only [records, hm, if_pos ho, onMap] using hm'
      all_goals exact ha.elim

-- A session from which another has come, with nobody setting the entry or taking it out in between.
inductive Spares (id : Nat) (key : Bytes) (s₀ : Session) : Session → Prop
  | refl : Spares id key s₀ s₀
  | run {s : Session} (c : Command) : c.Fair s → ¬s.Writes id key c → Spares id key s₀ s →
      Spares id key s₀ (s.run c).2

theorem Spares.reached (u : s₀.Spares id key s) (r : s₀.Reached) : s.Reached := by
  induction u
  case refl           => exact r
  case run c hc _ _ ih => exact .run c hc ih

theorem Spares.finds (u : s₀.Spares id key s) (r : s₀.Reached)
    (f : Machine.Finds s₀.host.machine.maps id key found) :
    Machine.Finds s.host.machine.maps id key found := by
  induction u
  case refl             => exact f
  case run c hc hw u ih => exact finds_run (u.reached r).told hc ih hw

end Session

end EbpfManager
