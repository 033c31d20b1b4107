import EbpfManager.Proofs.Entries.Calls
import EbpfManager.Proofs.Entries.Sessions

namespace EbpfManager

-- A call through a map that goes by a name, and what came of it.
structure EntryRecord where
  name    : String
  call    : EntryCall
  outcome : Outcome

-- A call that succeeds has an answer only if it is a question.
def Answer.ofEntry : Option Bytes → Answer
  | none       => .nothing
  | some value => .octets value

section Explains

variable {σ τ : Type}

-- That a series of calls from one state to another came to just what `call` says.
inductive Explains (call : σ → EntryCall → Except Refusal (Option Bytes × σ)) :
    σ → List EntryRecord → σ → Prop
  | nil (state : σ) : Explains call state [] state
  | answered {state next last : σ} {r : EntryRecord} {rs : List EntryRecord} {value : Option Bytes} :
      call state r.call = .ok (value, next) → r.outcome = .done (.ofEntry value) →
      Explains call next rs last → Explains call state (r :: rs) last
  | refused {state last : σ} {r : EntryRecord} {rs : List EntryRecord} {refusal : Refusal} :
      call state r.call = .error refusal → r.outcome = .failed (refusal.error r.name) →
      Explains call state rs last → Explains call state (r :: rs) last

namespace Explains

variable {call : σ → EntryCall → Except Refusal (Option Bytes × σ)} {state next last : σ}
  {rs rs' : List EntryRecord}

theorem append (e : Explains call state rs next) (e' : Explains call next rs' last) :
    Explains call state (rs ++ rs') last := by
  induction e
  case nil              => exact e'
  case answered h ho _ ih => exact .answered h ho (ih e')
  case refused h ho _ ih  => exact .refused h ho (ih e')

-- What each call keeps is kept.
theorem keep {k : σ → Prop} (e : Explains call state rs last)
    (hk : ∀ state c value next, k state → call state c = .ok (value, next) → k next)
    (h : k state) : k last := by
  induction e
  case nil               => exact h
  case answered hc _ _ ih => exact ih (hk _ _ _ _ h hc)
  case refused _ _ _ ih  => exact ih h

-- States seen in another way, in which calls come to the same.
theorem map {call' : τ → EntryCall → Except Refusal (Option Bytes × τ)} {view : σ → τ} {k : σ → Prop}
    (e : Explains call state rs last)
    (hk : ∀ state c value next, k state → call state c = .ok (value, next) → k next)
    (hv : ∀ state c, k state → call' (view state) c = (call state c).map fun (value, next) => (value, view next))
    (h : k state) : Explains call' (view state) rs (view last) := by
  induction e
  case nil => exact .nil _
  case answered state next last r rs value hc ho _ ih =>
    exact .answered (by rw [hv _ _ h, hc]; rfl) ho (ih (hk _ _ _ _ h hc))
  case refused hc ho _ ih => exact .refused (by rw [hv _ _ h, hc]; rfl) ho (ih h)

end Explains

end Explains

theorem KernelMap.entries_of_explains {map map' : KernelMap} {rs : List EntryRecord}
    (e : Explains KernelMap.call map rs map') : ∃ entries, map' = { map with entries } := by
  refine e.keep (k := fun map' => ∃ entries, map' = { map with entries }) ?_ ⟨map.entries, rfl⟩
  rintro _ c value next ⟨entries, rfl⟩ hc
  obtain ⟨entries', rfl⟩ := entries_of_call hc
  exact ⟨entries', rfl⟩

def WalkEdit.call : WalkEdit → EntryCall
  | .delete key       => .delete key
  | .upsert key value => .upsert key value

-- The edits among the items of a walk. Those for a position come after the item of the position.
def walkRecords (name : String) (edits : List (Nat × WalkEdit)) :
    Nat → List WalkEdit → List WalkItem → List EntryRecord
  | position, _, .entry _ :: items =>
    walkRecords name edits (position + 1) ((edits.filter (·.1 = position)).map Prod.snd) items
  | position, e :: rest, .edited result :: items =>
    ⟨name, e.call, Session.outcomeOf ((fun _ => .nothing) <$> result)⟩ ::
      walkRecords name edits position rest items
  | _, _, _ => []

-- That a command makes calls about entries.
def MapCommand.OnEntries : MapCommand → Prop
  | .insert .. | .update .. | .upsert .. | .delete _ | .lookup _ | .walk .. => True
  | _                                                                       => False

theorem MapCommand.OnEntries.accesses {c : MapCommand} (h : c.OnEntries) : c.Accesses := by
  cases c
  case insert | update | upsert | delete | lookup | walk => trivial
  all_goals exact h.elim

def MapCommand.records (name : String) : MapCommand → Outcome → List EntryRecord
  | .insert key value, outcome         => [⟨name, .insert key value, outcome⟩]
  | .update key value, outcome         => [⟨name, .update key value, outcome⟩]
  | .upsert key value, outcome         => [⟨name, .upsert key value, outcome⟩]
  | .delete key, outcome               => [⟨name, .delete key, outcome⟩]
  | .lookup key, outcome               => [⟨name, .lookup key, outcome⟩]
  | .walk edits _, .done (.walk items) => walkRecords name edits 0 [] items
  | _, _                               => []

namespace Map.On

variable {m : Map} {id : Nat} {map map' : KernelMap} {h h' : Host}

-- One call, and then the map is open on what the call left.
theorem after (o : m.On id map h) (l : h.Leads (Request.Accesses m) h') {c : EntryCall} {value : Option Bytes}
    (hc : map.call c = .ok (value, map')) (hm : h'.machine.maps.get? id = some map') : m.On id map' h' := by
  obtain ⟨entries, rfl⟩ := KernelMap.entries_of_call hc
  exact o.leads l hm

theorem reads (o : m.On id map h) (l : h.Leads (Request.Reads m) h') : m.On id map h' :=
  o.leads (l.mono fun _ => Request.Reads.accesses) ((l.of_reads o.sane.faultless).symm ▸ o.there)

-- A write, a deletion or a look at an entry, as a command.
theorem explains_question {α : Type} {a : α → Answer} {q : Map → Attempt α} {c : EntryCall}
    {value : α → Option Bytes} (o : m.On id map h) (w : Attempt.Asks (Request.Accesses m) (q m))
    (ha : ∀ v, a v = .ofEntry (value v))
    (hq : Ends (q m) h
      (fun v h' => ∃ map', map.call c = .ok (value v, map') ∧ h'.machine.maps.get? id = some map')
      fun e h' => ∃ r, map.call c = .error r ∧ e = r.error m.name ∧ h'.machine.maps.get? id = some map) :
    ∃ map', Explains KernelMap.call map
        [⟨m.name, c, Session.outcomeOf ((MapCommand.ask a q).outcome m h).1⟩] map' ∧
      m.On id map' ((MapCommand.ask a q).outcome m h).2.2 := by
  have hq := ends_iff_outcome.mp ((w.ends h).and hq)
  rw [MapCommand.outcome_ask]
  split at hq
  case h_1 v h' he =>
    obtain ⟨l, map', hc, hm⟩ := hq
    rw [he]
    exact ⟨map', .answered hc (congrArg Outcome.done (ha v)) (.nil _), o.after l hc hm⟩
  case h_2 e h' he =>
    obtain ⟨l, r, hc, rfl, hm⟩ := hq
    rw [he]
    exact ⟨map, .refused hc rfl (.nil _), o.leads l hm⟩

theorem explains_edit (o : m.On id map h) (e : WalkEdit) :
    ∃ map', Explains KernelMap.call map
        [⟨m.name, e.call, Session.outcomeOf ((fun _ => .nothing) <$> ((m.edit e).outcome h).1)⟩] map' ∧
      m.On id map' ((m.edit e).outcome h).2 := by
  have hq : Ends (m.edit e) h
      (fun _ h' => ∃ map', map.call e.call = .ok (none, map') ∧ h'.machine.maps.get? id = some map')
      fun err h' => ∃ r, map.call e.call = .error r ∧ err = r.error m.name ∧
        h'.machine.maps.get? id = some map := by
    cases e
    case delete key       => exact o.delete key
    case upsert key value => exact o.write key value _
  have hx := o.explains_question (a := fun _ => .nothing) (q := fun m => m.edit e) (m.edit_asks e)
    (fun _ => rfl) hq
  rwa [MapCommand.outcome_ask] at hx

theorem explains_editAll (o : m.On id map h) (edits : List (Nat × WalkEdit)) (position : Nat)
    (es : List WalkEdit) : ∃ rs map', Explains KernelMap.call map rs map' ∧ m.On id map' (m.editAll es h).2 ∧
      ∀ items, walkRecords m.name edits position es ((m.editAll es h).1 ++ items) =
        rs ++ walkRecords m.name edits position [] items := by
  induction es generalizing map h
  case nil => exact ⟨[], map, .nil _, o, fun _ => rfl⟩
  case cons e es ih =>
    obtain ⟨map₁, x₁, o₁⟩ := o.explains_edit e
    obtain ⟨rs, map₂, x₂, o₂, hr⟩ := ih o₁
    refine ⟨_ :: rs, map₂, x₁.append x₂, o₂, fun items => ?_⟩
    exact congrArg (_ :: ·) (hr items)

-- A step to the next item does not change anything, and the edits after it are made one after another.
theorem explains_takeEntries (o : m.On id map h) (edits : List (Nat × WalkEdit)) (bound position : Nat)
    (es : List WalkEdit) (c : Cursor) : ∃ map',
      Explains KernelMap.call map
        (walkRecords m.name edits position es (m.takeEntries edits bound position c h).1) map' ∧
      m.On id map' (m.takeEntries edits bound position c h).2 := by
  induction bound generalizing position es c map h
  case zero => exact ⟨map, by simpa [takeEntries, walkRecords] using .nil _, o⟩
  case succ bound ih =>
    have l : h.Leads (Request.Reads m) (m.stepEntry c h).2.2 := m.stepEntryWithin_leads ..
    unfold takeEntries
    split
    case h_1 he =>
      rw [he] at l
      exact ⟨map, by simpa [walkRecords] using .nil _, o.reads l⟩
    case h_2 item c h₁ he =>
      rw [he] at l
      have o₁ := o.reads l
      obtain ⟨rs, map₂, x₂, o₂, hr⟩ :=
        o₁.explains_editAll edits (position + 1) ((edits.filter (·.1 = position)).map Prod.snd)
      obtain ⟨map₃, x₃, o₃⟩ := ih o₂ (position + 1) [] c
      refine ⟨map₃, ?_, o₃⟩
      simp only [List.cons_append, walkRecords, hr]
      exact x₂.append x₃

theorem explains_run (o : m.On id map h) {command : MapCommand} (hc : command.OnEntries) :
    ∃ map', Explains KernelMap.call map
        (command.records m.name (Session.outcomeOf (command.run.outcome m h).1)) map' ∧
      m.On id map' (command.run.outcome m h).2.2 := by
  cases command
  case insert key value => exact o.explains_question (m.write_asks ..) (fun _ => rfl) (o.write key value _)
  case update key value => exact o.explains_question (m.write_asks ..) (fun _ => rfl) (o.write key value _)
  case upsert key value => exact o.explains_question (m.write_asks ..) (fun _ => rfl) (o.write key value _)
  case delete key => exact o.explains_question (m.delete_asks _) (fun _ => rfl) (o.delete key)
  case lookup key =>
    refine o.explains_question ((m.lookup_asks key).mono fun _ => Request.Reads.accesses)
      (fun _ => rfl) ((o.sees.lookup key).imp_ok fun value h' ⟨hc, hm⟩ => ⟨map, hc, hm⟩)
  case walk edits limit => exact o.explains_takeEntries edits limit 0 [] {}
  all_goals exact hc.elim

end Map.On

namespace Session

-- Whether a map is open on the map of the kernel with a number.
def IsOpenOn (s : Session) (m : Map) (id : Nat) : Prop :=
  m.handle.fd?.bind s.host.machine.handles.get? = some (.map id)

instance (s : Session) (m : Map) (id : Nat) : Decidable (s.IsOpenOn m id) :=
  inferInstanceAs (Decidable (_ = _))

-- The calls that a command makes about the entries of one map of the kernel.
def records (s : Session) (id : Nat) : Command → List EntryRecord
  | .onMap place command =>
    match s.map? place with
    | some m => if s.IsOpenOn m id then command.records m.name (s.onMap place command).1 else []
    | none   => []
  | _ => []

def runs (s : Session) (cs : List Command) : Session :=
  cs.foldl (fun s c => (s.run c).2) s

-- The calls about the entries of one map that were made through whichever maps were open on it, each with its
-- outcome.
def history (s : Session) (id : Nat) : List Command → List EntryRecord
  | []      => []
  | c :: cs => s.records id c ++ (s.run c).2.history id cs

variable {s : Session} {id : Nat} {map : KernelMap} {c : Command}

theorem isOpenOn_iff {m : Map} : s.IsOpenOn m id ↔
    ∃ fd, m.handle = .live fd ∧ s.host.machine.handles.get? fd = some (.map id) := by
  unfold IsOpenOn
  cases m.handle <;> simp [Handle.fd?]

-- A map is open on one map of the kernel at most.
theorem isOpenOn_unique {m : Map} {id' : Nat} (h : s.IsOpenOn m id) (h' : s.IsOpenOn m id') : id = id' := by
  cases h.symm.trans h'
  rfl

theorem Told.sees {d : Map → Prop} {place : MapRef} {m : Map} (t : s.Told d) (h : s.map? place = some m)
    (hs : m.Sized) (ho : s.IsOpenOn m id) (hm : s.host.machine.maps.get? id = some map) :
    m.Sees id map s.host := by
  obtain ⟨fd, hl, hg⟩ := isOpenOn_iff.mp ho
  exact ⟨t.sane, ⟨fd, hl, hg⟩, hm, (((t.place h).declares hl).holds hg hm).mirrors hs⟩

-- What is asked of a map that is not open on the map of the kernel leaves that one alone.
theorem get?_of_not_isOpenOn {m : Map} {command : MapCommand} (o : s.host.Sane) (hn : ¬s.IsOpenOn m id)
    (ha : command.Accesses) :
    (command.run.outcome m s.host).2.2.machine.maps.get? id = s.host.machine.maps.get? id := by
  have l := command.run_accesses ha m s.host
  cases hm : m.handle
  case live fd => exact l.of_accesses o.faultless hm fun ho => hn (isOpenOn_iff.mpr ⟨fd, hm, ho⟩)
  case unset | closed =>
    refine l.keep (k := fun machine => machine.maps.get? id = s.host.machine.maps.get? id) o.faultless
      (fun machine r hr _ => ?_) (fun _ _ h => h) rfl
    cases r <;> simp [Request.Accesses, hm] at hr

-- That a command makes calls about the entries of a map of the kernel.
def Calls (s : Session) (id : Nat) (c : Command) : Prop :=
  ∃ place command m, c = .onMap place command ∧ s.map? place = some m ∧ s.IsOpenOn m id ∧ command.OnEntries

theorem records_of_not_calls (h : ¬s.Calls id c) : s.records id c = [] := by
  unfold records
  split
  case h_1 place command =>
    split
    case h_1 m hm =>
      rw [ite_eq_right_iff]
      intro ho
      cases command
      case insert | update | upsert | delete | lookup | walk =>
        exact absurd ⟨_, _, m, rfl, hm, ho, trivial⟩ h
      all_goals rfl
    case h_2 => rfl
  case h_2 => rfl

-- A command that is about entries, but not of this map, or that only looks at them.
theorem get?_of_not_calls (f : s.Faithful) (h : ¬s.Calls id c) (ha : c.Accesses) :
    (s.run c).2.host.machine.maps.get? id = s.host.machine.maps.get? id := by
  cases c
  case onMap place command =>
    cases hm : s.map? place
    case none => simp [run, onMap, hm]
    case some m =>
      simp only [run, host_onMap hm]
      by_cases ho : s.IsOpenOn m id
      case neg => exact get?_of_not_isOpenOn f.sane ho ha
      case pos =>
        have hn : ¬command.OnEntries := fun hc => h ⟨_, _, m, rfl, hm, ho, hc⟩
        have hr : command.Reads := by cases command <;> first | exact ha | exact absurd trivial hn
        rw [(command.run_reads hr m s.host).of_reads f.sane.faultless]
  all_goals exact ha.elim

-- One command, and a map that was there before.
theorem explains_run (f : s.Faithful) (hc : c.Genuine) (hm : s.host.machine.maps.get? id = some map)
    (v : map.Verbatim) : ∃ map', (s.run c).2.host.machine.maps.get? id = some map' ∧
      Explains KernelMap.call map (s.records id c) map' := by
  by_cases h : s.Calls id c
  case pos =>
    obtain ⟨place, command, m, rfl, hp, ho, he⟩ := h
    obtain ⟨fd, hl, ho'⟩ := isOpenOn_iff.mp ho
    have o : m.On id map s.host := ⟨f.sane, ⟨fd, hl, ho'⟩, hm, ((f.map hp).mirrors hl).holds ho' hm, v⟩
    obtain ⟨map', x, o'⟩ := o.explains_run he
    refine ⟨map', by simpa only [run, host_onMap hp] using o'.there, ?_⟩
    simpa only [records, hp, if_pos ho, onMap] using x
  case neg =>
    refine ⟨map, ?_, records_of_not_calls h ▸ .nil map⟩
    by_cases ha : c.Accesses
    case pos => rw [get?_of_not_calls f h ha, hm]
    case neg => exact (run_quiet hc ha).of_quiet f.sane hm

-- Nothing is open on a map that is not there.
theorem not_calls_of_none (f : s.Faithful) (hn : s.host.machine.maps.get? id = none) : ¬s.Calls id c := by
  rintro ⟨_, _, m, _, _, ho, _⟩
  obtain ⟨fd, _, ho⟩ := isOpenOn_iff.mp ho
  obtain ⟨map, hm⟩ := f.sane.consistent.handle ho
  simp [hn] at hm

-- One command, and a map that was not there before.
theorem new_run (f : s.Faithful) (hc : c.Genuine) (hn : s.host.machine.maps.get? id = none)
    (hm : (s.run c).2.host.machine.maps.get? id = some map) :
    map.entries = Machine.initialEntries map.shape := by
  by_cases ha : c.Accesses
  case pos => rw [get?_of_not_calls f (not_calls_of_none f hn) ha, hn] at hm; cases hm
  case neg => exact (run_quiet hc ha).new_of_quiet f.sane.faultless hn hm

theorem faithful_runs (f : s.Faithful) {cs : List Command} (hc : ∀ c ∈ cs, c.Genuine ∧ c.Sized) :
    (s.runs cs).Faithful := by
  induction cs generalizing s
  case nil => exact f
  case cons c cs ih =>
    obtain ⟨hg, hs⟩ := hc c List.mem_cons_self
    exact ih (f.run hg hs) fun c h => hc c (List.mem_cons_of_mem _ h)

theorem runs_leads {cs : List Command} (hc : ∀ c ∈ cs, c.Genuine ∧ c.Sized) :
    s.host.Leads (fun _ => True) (s.runs cs).host := by
  induction cs generalizing s
  case nil => exact .refl
  case cons c cs ih =>
    have hg := (hc c List.mem_cons_self).left
    exact (run_leads hg).trans <| ih fun c h => hc c (List.mem_cons_of_mem _ h)

theorem explains_runs (f : s.Faithful) {cs : List Command} (hc : ∀ c ∈ cs, c.Genuine ∧ c.Sized)
    (hm : s.host.machine.maps.get? id = some map) (v : map.Verbatim) :
    ∃ map', (s.runs cs).host.machine.maps.get? id = some map' ∧
      Explains KernelMap.call map (s.history id cs) map' := by
  induction cs generalizing s map
  case nil => exact ⟨map, hm, .nil map⟩
  case cons c cs ih =>
    obtain ⟨hg, hs⟩ := hc c List.mem_cons_self
    obtain ⟨map₁, hm₁, x₁⟩ := explains_run f hg hm v
    have v₁ : map₁.Verbatim := by
      obtain ⟨_, rfl⟩ := KernelMap.entries_of_explains x₁
      exact ⟨v.notHandleArray, v.notHashOfMaps⟩
    obtain ⟨map₂, hm₂, x₂⟩ := ih (f.run hg hs) (fun c h => hc c (List.mem_cons_of_mem _ h)) hm₁ v₁
    exact ⟨map₂, hm₂, x₁.append x₂⟩

-- A map is made in the course of the commands. No call is about it before, and all are explained after.
theorem explains_history (f : s.Faithful) {cs : List Command} (hc : ∀ c ∈ cs, c.Genuine ∧ c.Sized)
    (hn : s.host.machine.maps.get? id = none) (hm : (s.runs cs).host.machine.maps.get? id = some map)
    (v : map.Verbatim) :
    Explains KernelMap.call { map with entries := Machine.initialEntries map.shape } (s.history id cs) map := by
  induction cs generalizing s
  case nil => exact absurd (hn.symm.trans hm) (by simp)
  case cons c cs ih =>
    obtain ⟨hg, hs⟩ := hc c List.mem_cons_self
    have hc' : ∀ c ∈ cs, c.Genuine ∧ c.Sized := fun c h => hc c (List.mem_cons_of_mem _ h)
    have hr : s.history id (c :: cs) = (s.run c).2.history id cs := by
      rw [history, records_of_not_calls (not_calls_of_none f hn), List.nil_append]
    rw [hr]
    cases h₁ : (s.run c).2.host.machine.maps.get? id
    case none => exact ih (f.run hg hs) hc' h₁ hm
    case some map₁ =>
      have f₁ := f.run hg hs
      obtain ⟨map', hm', hi, hk⟩ := (runs_leads hc').info f₁.sane h₁
      cases hm.symm.trans hm'
      have v₁ : map₁.Verbatim := ⟨hk ▸ v.notHandleArray, hk ▸ v.notHashOfMaps⟩
      obtain ⟨map₂, hm₂, x⟩ := explains_runs f₁ hc' h₁ v₁
      cases hm.symm.trans hm₂
      obtain ⟨entries, rfl⟩ := KernelMap.entries_of_explains x
      have he : KernelMap.mk map₁.info map₁.kind map₁.valueLength
        (Machine.initialEntries map₁.shape) = map₁ := by
        rw [← new_run f hg hn h₁]
      exact he.symm ▸ x

end Session

end EbpfManager
