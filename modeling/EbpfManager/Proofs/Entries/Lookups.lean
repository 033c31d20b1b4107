import EbpfManager.Proofs.Entries.History

namespace EbpfManager

namespace KernelMap

def lookup (map : KernelMap) (key : Datum) : Except (String → Error) Bytes :=
  match map.encodeKey key with
  | .error r => .error r.error
  | .ok key  => (map.entries.get? key).elim (.error .notFound) .ok

def lookupInteger (map : KernelMap) (key : Datum) : Except (String → Error) Nat :=
  if map.kind.isPerCpu then .error (.unsupported .lookupInteger · map.kind)
  else do
    let value ← map.lookup key
    value.decodeUnsigned.mapError fun e name => .invalidValue name (.encoding e)

def lookupText (map : KernelMap) (key : Datum) : Except (String → Error) String :=
  Text.ofPadded <$> map.lookup key

def lookupPerCpu (map : KernelMap) (key : Datum) : Except (String → Error) (List Bytes) :=
  if map.kind.isPerCpu then
    (fun value => (value.chunks map.form.slot).map (·.take map.info.valueSize.toNat)) <$> map.lookup key
  else .error (.unsupported .lookupPerCpu · map.kind)

-- What the four ways to look for an entry come to. This knows nothing of the map that is asked but its name, which
-- is in the errors.
def find? (map : KernelMap) : MapCommand → Option (Except (String → Error) Answer)
  | .lookup key        => some (.octets <$> map.lookup key)
  | .lookupInteger key => some (.number <$> map.lookupInteger key)
  | .lookupText key    => some (.text <$> map.lookupText key)
  | .lookupPerCpu key  => some (.slots <$> map.lookupPerCpu key)
  | _                  => none

end KernelMap

namespace Attempt

variable {α β : Type} {work : Attempt α} {next : α → Attempt β} {h : Host} {name : String}

-- That work comes to a result in which only a name was left open.
def Answers (work : Attempt α) (h : Host) (name : String) (x : Except (String → Error) α) : Prop :=
  Ends work h (fun value _ => x = .ok value) fun e _ => ∃ e', x = .error e' ∧ e = e' name

namespace Answers

variable {x : Except (String → Error) α} {f : α → Except (String → Error) β}

theorem bind (w : work.Answers h name x) (n : ∀ a h', (next a).Answers h' name (f a)) :
    (work >>= next).Answers h name (x >>= f) := by
  refine ends_bind.mpr <| Ends.imp w (fun a h' he => ?_) fun e h' ⟨e', he, hn⟩ => ⟨e', by rw [he]; rfl, hn⟩
  rw [he]
  exact n a h'

theorem pure (a : α) : (Pure.pure a : Attempt α).Answers h name (.ok a) :=
  rfl

theorem throw (e : String → Error) : (MonadExcept.throw (e name) : Attempt α).Answers h name (.error e) :=
  ⟨e, rfl, rfl⟩

theorem accept {ε : Type} (wrap : ε → String → Error) (x : Except ε α) :
    (Attempt.accept (wrap · name) x).Answers h name (x.mapError wrap) := by
  cases x
  case ok a    => exact rfl
  case error e => exact ⟨wrap e, rfl, rfl⟩

end Answers

end Attempt

namespace Map.Sees

open Attempt (Answers)

variable {m : Map} {id : Nat} {map : KernelMap} {h : Host}

theorem answers_lookup (o : m.Sees id map h) (key : Datum) : (m.lookup key).Answers h m.name (map.lookup key) := by
  obtain ⟨fd, hm, ho⟩ := o.handle
  unfold Answers Map.lookup KernelMap.lookup
  simp only [liveFd, hm, ends_bind, ends_except, encodeKey_eq o.mirrors o.wellFormed]
  cases hkey : map.encodeKey key
  case error r => exact ⟨_, rfl, rfl⟩
  case ok key =>
    refine (o.lookupOctets hm (KernelMap.encodeKey_eq_ok hkey).left).imp ?_ ?_
    case refine_1 => exact fun value h' ⟨hg, _⟩ => by simp [hg]
    case refine_2 => exact fun e h' ⟨hg, he, _⟩ => ⟨.notFound, by simp [hg], he⟩

theorem answers_lookupInteger (o : m.Sees id map h) (key : Datum) :
    (m.lookupInteger key).Answers h m.name (map.lookupInteger key) := by
  unfold Map.lookupInteger KernelMap.lookupInteger
  rw [o.mirrors.kind]
  split
  case isTrue  => exact .throw (.unsupported .lookupInteger · map.kind)
  case isFalse =>
    exact .bind (o.answers_lookup key) fun value _ => .accept (fun e name => .invalidValue name (.encoding e)) _

theorem answers_lookupText (o : m.Sees id map h) (key : Datum) :
    (m.lookupText key).Answers h m.name (map.lookupText key) :=
  .bind (o.answers_lookup key) fun _ _ => .pure _

-- The slot of a processor is not empty.
theorem answers_lookupPerCpu (o : m.Sees id map h) (key : Datum) :
    (m.lookupPerCpu key).Answers h m.name (map.lookupPerCpu key) := by
  have hs : m.slotSize ≠ 0 := by
    have := o.mirrors.valueSize ▸ o.wellFormed.valueSize_pos
    unfold slotSize
    omega
  unfold Map.lookupPerCpu KernelMap.lookupPerCpu
  rw [o.mirrors.kind, ← slotSize_eq o.mirrors, ← o.mirrors.valueSize]
  cases map.kind.isPerCpu
  case false => exact .throw (.unsupported .lookupPerCpu · map.kind)
  case true =>
    simp only [Bool.not_true, Bool.false_eq_true, if_false, if_true, if_neg hs]
    exact .bind (o.answers_lookup key) fun _ _ => .pure _

theorem outcome_ask {α : Type} {a : α → Answer} {q : Map → Attempt α} {x : Except (String → Error) α}
    (hq : (q m).Answers h m.name x) : ((MapCommand.ask a q).outcome m h).1 = (a <$> x).mapError (· m.name) := by
  rw [MapCommand.outcome_ask]
  have hq := ends_iff_outcome.mp hq
  split at hq
  case h_1 he => rw [he, hq]; rfl
  case h_2 he =>
    obtain ⟨e', rfl, rfl⟩ := hq
    rw [he]
    rfl

theorem outcome_find (o : m.Sees id map h) {c : MapCommand} {x : Except (String → Error) Answer}
    (hx : map.find? c = some x) : (c.run.outcome m h).1 = x.mapError (· m.name) := by
  cases c
  case lookup        => cases hx; exact outcome_ask (o.answers_lookup _)
  case lookupInteger => cases hx; exact outcome_ask (o.answers_lookupInteger _)
  case lookupText    => cases hx; exact outcome_ask (o.answers_lookupText _)
  case lookupPerCpu  => cases hx; exact outcome_ask (o.answers_lookupPerCpu _)
  all_goals cases hx

end Map.Sees

-- That the kind of an error does not depend on the name in it.
def Uniform {α : Type} (x : Except (String → Error) α) : Prop :=
  ∀ e, x = .error e → ∀ name name', (e name).ctorIdx = (e name').ctorIdx

namespace Uniform

variable {α β : Type} {x : Except (String → Error) α}

theorem ok (a : α) : Uniform (.ok a) :=
  fun _ h => by cases h

theorem bind {f : α → Except (String → Error) β} (hx : Uniform x) (hf : ∀ a, Uniform (f a)) :
    Uniform (x >>= f) := by
  cases x
  case ok a    => exact hf a
  case error e => exact fun e' h => hx e' (by cases h; rfl)

theorem map (hx : Uniform x) (f : α → β) : Uniform (f <$> x) := by
  cases x
  case ok a    => exact .ok (f a)
  case error e => exact fun e' h => hx e' (by cases h; rfl)

end Uniform

namespace KernelMap

theorem uniform_lookup (map : KernelMap) (key : Datum) : Uniform (map.lookup key) := by
  unfold lookup
  split
  case h_1 r _ =>
    intro e h _ _
    cases h
    cases r <;> rfl
  case h_2 bytes _ =>
    cases map.entries.get? bytes
    case none       => exact fun e h _ _ => by cases h; rfl
    case some value => exact .ok value

theorem uniform_lookupInteger (map : KernelMap) (key : Datum) : Uniform (map.lookupInteger key) := by
  unfold lookupInteger
  split
  case isTrue  => exact fun e h _ _ => by cases h; rfl
  case isFalse =>
    refine .bind (map.uniform_lookup key) fun value => ?_
    cases value.decodeUnsigned
    case ok n    => exact .ok n
    case error r => exact fun e h _ _ => by cases h; rfl

theorem uniform_lookupPerCpu (map : KernelMap) (key : Datum) : Uniform (map.lookupPerCpu key) := by
  unfold lookupPerCpu
  split
  case isTrue  => exact (map.uniform_lookup key).map _
  case isFalse => exact fun e h _ _ => by cases h; rfl

theorem uniform_find? {map : KernelMap} {c : MapCommand} {x : Except (String → Error) Answer}
    (hx : map.find? c = some x) : Uniform x := by
  cases c
  case lookup        => cases hx; exact (map.uniform_lookup _).map _
  case lookupInteger => cases hx; exact (map.uniform_lookupInteger _).map _
  case lookupText    => cases hx; exact ((map.uniform_lookup _).map _).map _
  case lookupPerCpu  => cases hx; exact (map.uniform_lookupPerCpu _).map _
  all_goals cases hx

end KernelMap

-- The ways to look for an entry.
def MapCommand.Looks : MapCommand → Prop
  | .lookup _ | .lookupInteger _ | .lookupText _ | .lookupPerCpu _ => True
  | _                                                              => False

theorem MapCommand.Looks.find? {c : MapCommand} (h : c.Looks) (map : KernelMap) : ∃ x, map.find? c = some x := by
  cases c
  case lookup | lookupInteger | lookupText | lookupPerCpu => exact ⟨_, rfl⟩
  all_goals exact h.elim

-- The same answer, or errors of the same kind.
inductive Outcome.Alike : Outcome → Outcome → Prop
  | done (answer : Answer) : Alike (.done answer) (.done answer)
  | failed {e e' : Error} : e.ctorIdx = e'.ctorIdx → Alike (.failed e) (.failed e')

namespace Session

-- A map in its place that is open on a map of the kernel, and that the kernel could be told all sizes of.
structure Opens (s : Session) (place : MapRef) (m : Map) (id : Nat) : Prop where
  there    : s.map? place = some m
  sized    : m.Sized
  isOpenOn : s.IsOpenOn m id

variable {s : Session} {d : Map → Prop} {place : MapRef} {m : Map} {id : Nat} {map : KernelMap}

theorem Opens.sees (o : s.Opens place m id) (t : s.Told d) (hm : s.host.machine.maps.get? id = some map) :
    m.Sees id map s.host :=
  t.sees o.there o.sized o.isOpenOn hm

theorem Opens.run_find {command : MapCommand} {x : Except (String → Error) Answer} (o : s.Opens place m id)
    (t : s.Told d) (hm : s.host.machine.maps.get? id = some map) (hx : map.find? command = some x) :
    (s.run (.onMap place command)).1 = outcomeOf (x.mapError (· m.name)) := by
  have he := (o.sees t hm).outcome_find hx
  simp [run, onMap, o.there, ← he]

-- Two maps that are open on one map of the kernel.
theorem Opens.alike {place' : MapRef} {m' : Map} {c : MapCommand} (o : s.Opens place m id) (o' : s.Opens place' m' id)
    (t : s.Told d) (hc : c.Looks) :
    Outcome.Alike (s.run (.onMap place c)).1 (s.run (.onMap place' c)).1 := by
  obtain ⟨fd, _, hg⟩ := isOpenOn_iff.mp o.isOpenOn
  obtain ⟨map, hm⟩ := t.sane.consistent.handle hg
  obtain ⟨x, hx⟩ := hc.find? map
  rw [o.run_find t hm hx, o'.run_find t hm hx]
  cases x
  case ok answer => exact .done answer
  case error e   => exact .failed (KernelMap.uniform_find? hx e rfl m.name m'.name)

end Session

end EbpfManager
