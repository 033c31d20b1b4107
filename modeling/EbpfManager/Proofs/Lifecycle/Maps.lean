import EbpfManager.Proofs.Handles.MapCommands
import EbpfManager.Proofs.Handles.Others
import EbpfManager.Proofs.Requests.Maps
import Mathlib.Logic.Relation

namespace EbpfManager

open Relation

variable {m : Map} {h h₀ : Host}

inductive Handle.Moves : Handle → Handle → Prop
  | open (fd : Fd)    : Moves .unset (.live fd)
  | close (a : Handle) : Moves a .closed

namespace Handle.Moves

variable {a b : Handle}

theorem closed (st : ReflTransGen Moves a b) (ha : a = .closed) : b = .closed := by
  induction st
  case refl         => exact ha
  case tail st ih => cases ih ▸ st; rfl

theorem live {fd : Fd} (st : ReflTransGen Moves a b) (ha : a = .live fd) : b = .live fd ∨ b = .closed := by
  induction st
  case refl => exact .inl ha
  case tail st ih =>
    cases st
    case «open» => simp at ih
    case close  => exact .inr rfl

end Handle.Moves

-- A host on which nothing has happened to the machine.
structure Host.Still (h₀ h : Host) : Prop where
  faultless : h.faults = []
  machine   : h.machine = h₀.machine

namespace Host.Still

theorem refl (hf : h.faults = []) : h.Still h :=
  ⟨hf, rfl⟩

-- A call that the kernel only answers.
theorem perform {r : Request} (w : h₀.Still h) (hr : (h.machine.answer r).2 = h.machine) :
    h₀.Still (h.perform r).2 := by
  rw [perform_of_faults_eq_nil r w.faultless]
  exact ⟨w.faultless, hr.trans w.machine⟩

-- A call that fails.
theorem perform_settle {α : Type} {r : Request} {x : Except CallError (α × Machine)} {e : CallError}
    (w : h₀.Still h) (ha : (h.machine.answer r).2 = (h.machine.settle x).2) (he : (h.machine.settle x).1 = .error e) :
    h₀.Still (h.perform r).2 := by
  refine w.perform (ha.trans ?_)
  cases x
  case ok    => cases he
  case error => rfl

end Host.Still

namespace Map

-- Questions, whatever the answer is.
theorem still_ask {r : Request} (hr : ∀ machine : Machine, (machine.answer r).2 = machine) :
    Maintains h₀.Still (Attempt.perform r) :=
  fun _ w => ends_perform.mpr (w.perform (hr _))

theorem still_except {α : Type} (x : Except Error α) : Maintains h₀.Still (liftM x : Attempt α) := by
  cases x <;> exact fun _ w => w

theorem still_accept {ε α : Type} (wrap : ε → Error) (x : Except ε α) :
    Maintains h₀.Still (Attempt.accept wrap x) := by
  cases x <;> exact fun _ w => w

theorem still_guard {α : Type} {c : Prop} [Decidable c] {e : Error} {next : PUnit → Attempt α}
    (n : ∀ a, Maintains h₀.Still (next a)) :
    Maintains h₀.Still (if c then throw e >>= next else next ⟨⟩) := by
  split
  case isTrue  => exact fun _ w => w
  case isFalse => exact n _

theorem still_pure {α : Type} (a : α) : Maintains h₀.Still (pure a : Attempt α) :=
  fun _ w => w

theorem kernelInfo_still : Maintains h₀.Still m.kernelInfo :=
  (still_except _).bind fun fd => (still_ask (r := .mapInfo fd) fun _ => rfl).bind fun _ => still_accept _ _

theorem lookupOctets_still (fd : Fd) (key : Bytes) : Maintains h₀.Still (m.lookupOctets fd key) :=
  (still_except _).bind fun size =>
    (still_ask (r := .mapLookup fd key size) fun _ => rfl).bind fun _ => still_accept _ _

theorem lookup_still (key : Datum) : Maintains h₀.Still (m.lookup key) :=
  (still_except _).bind fun fd => (still_except _).bind fun key => lookupOctets_still fd key

theorem lookupInteger_still (key : Datum) : Maintains h₀.Still (m.lookupInteger key) := by
  unfold lookupInteger
  exact still_guard fun _ => (lookup_still key).bind fun _ => still_accept _ _

theorem lookupText_still (key : Datum) : Maintains h₀.Still (m.lookupText key) :=
  (lookup_still key).bind fun _ => still_pure _

theorem lookupPerCpu_still (key : Datum) : Maintains h₀.Still (m.lookupPerCpu key) := by
  unfold lookupPerCpu
  exact still_guard fun _ => (lookup_still key).bind fun _ => still_guard fun _ => still_pure _

theorem nextKey_still (key : Option Bytes) : Maintains h₀.Still (m.nextKey key) := by
  refine (still_except _).bind fun fd => ?_
  have ask : Maintains h₀.Still (Attempt.perform (.mapNextKey fd key m.keySize) >>=
      Attempt.accept (.syscall .mapNextKey)) :=
    (still_ask (r := .mapNextKey fd key m.keySize) fun _ => rfl).bind fun _ => still_accept _ _
  cases key
  case none     => exact ask
  case some key => exact still_guard fun _ => ask

theorem valueAt_still (key : Bytes) : Maintains h₀.Still (m.valueAt key) :=
  (still_except _).bind fun fd => lookupOctets_still fd key

theorem stepKey_still (c : Cursor) (w : h₀.Still h) : h₀.Still (m.stepKey c h).2.2 := by
  unfold stepKey
  split
  case isTrue => exact w
  case isFalse =>
    split
    case h_1 he | h_2 he => exact (nextKey_still _).of_eq_ok w he
    case h_3 he          => exact (nextKey_still _).of_eq_error w he

theorem stepEntryWithin_still (bound : Nat) (c : Cursor) (w : h₀.Still h) :
    h₀.Still (m.stepEntryWithin bound c h).2.2 := by
  induction bound generalizing c h
  case zero => exact w
  case succ bound ih =>
    have hk := stepKey_still (m := m) c w
    unfold stepEntryWithin
    split
    case h_1 he | h_2 he => rwa [he] at hk
    case h_3 he =>
      rw [he] at hk
      split
      case h_1 hv => exact (valueAt_still _).of_eq_ok hk hv
      case h_2 hv => exact ih _ ((valueAt_still _).of_eq_error hk hv)
      case h_3 hv => exact (valueAt_still _).of_eq_error hk hv

-- Writing and removing, where it fails.
theorem write_still (key value : Datum) (flags : UpdateFlags) (w : h₀.Still h) :
    Ends (m.write key value flags) h (fun _ _ => True) fun _ => h₀.Still := by
  unfold write
  refine ends_bind.mpr <| ((still_except _) h w).imp (fun fd h w => ?_) fun _ _ w => w
  refine ends_bind.mpr <| ((still_except _) h w).imp (fun key h w => ?_) fun _ _ w => w
  refine ends_bind.mpr <| ((still_except _) h w).imp (fun value h w => ?_) fun _ _ w => w
  simp only [ends_ite, ends_bind, ends_throw, w, implies_true, true_and]
  intro _
  rw [ends_perform, ends_accept]
  split
  case h_1 => trivial
  case h_2 he =>
    rw [Host.perform_of_faults_eq_nil _ w.faultless] at he
    exact w.perform_settle rfl he

theorem delete_still (key : Datum) (w : h₀.Still h) :
    Ends (m.delete key) h (fun _ _ => True) fun _ => h₀.Still := by
  unfold delete
  refine ends_bind.mpr <| ((still_except _) h w).imp (fun fd h w => ?_) fun _ _ w => w
  simp only [ends_ite, ends_bind, ends_throw, w, implies_true, true_and]
  intro _
  refine ((still_except _) h w).imp (fun key h w => ?_) fun _ _ w => w
  rw [ends_perform, ends_accept]
  split
  case h_1 => trivial
  case h_2 he =>
    rw [Host.perform_of_faults_eq_nil _ w.faultless] at he
    exact w.perform_settle rfl he

-- A map is opened by work that succeeds.
theorem createNew_opens :
    Ends createNew (m, h) (fun _ s => ∃ fd, s.1.handle = .live fd) fun _ s => s.1.handle = m.handle := by
  simp only [createNew, ends_bind, ends_object, ends_lift, ends_change, ends_debug]
  refine .of_forall (fun template h => ?_) fun _ _ => trivial
  refine ends_perform_of_forall fun reply h => .of_forall (fun _ h => ?_) fun _ _ => trivial
  exact .of_forall (fun fd _ => ⟨fd, rfl⟩) fun _ _ => trivial

theorem openPinned_opens (path : Path) :
    Ends (openPinned path) (m, h) (fun _ s => ∃ fd, s.1.handle = .live fd) fun _ s => s.1.handle = m.handle := by
  simp only [openPinned, ends_bind, ends_object, ends_lift]
  refine ends_perform_of_forall fun reply h => .of_forall (fun fd h => ?_) fun _ _ => trivial
  refine .of_forall (fun info h => ?_) fun _ _ => trivial
  simp only [ends_ite, ends_bind, ends_change, ends_lift, ends_debug, ends_throw]
  exact ⟨fun _ => ⟨fd, rfl⟩, fun _ => .of_forall (fun _ _ => trivial) fun _ _ => trivial⟩

theorem pin_handle (path : Path) (a : Handle) : Maintains (fun s => s.1.handle = a) (pin path) := by
  rintro ⟨m, h⟩ hm
  simp only [pin, ends_bind, ends_object, ends_liftExcept]
  split
  case h_2 => exact hm
  case h_1 fd _ =>
    simp only [ends_lift, ends_change, ends_debug]
    exact ends_perform_of_forall fun reply h => .of_forall (fun _ _ => hm) fun _ _ => hm

theorem unpin_handle (a : Handle) : Maintains (fun s => s.1.handle = a) unpin := by
  rintro ⟨m, h⟩ hm
  simp only [unpin, ends_bind, ends_object]
  split
  case h_1 => exact hm
  case h_2 =>
    simp only [ends_bind, ends_lift, ends_files, ends_change, ends_debug]
    split <;> exact hm

open Handle (Moves)

theorem create_moves :
    Ends create (m, h) (fun _ s => ReflGen Moves m.handle s.1.handle) fun _ s => ReflGen Moves m.handle s.1.handle := by
  simp only [create, ends_bind, ends_object]
  split
  case h_1 | h_2 => exact .refl
  case h_3 hm =>
    have opened {s : Map × Host} (ho : ∃ fd, s.1.handle = .live fd) : ReflGen Moves m.handle s.1.handle := by
      obtain ⟨fd, ho⟩ := ho
      rw [hm, ho]
      exact .single (.open fd)
    have same {s : Map × Host} (ho : s.1.handle = m.handle) : ReflGen Moves m.handle s.1.handle := ho ▸ .refl
    simp only [ends_bind, ends_lift, ends_change]
    refine .of_forall (fun cpus h => ?_) fun _ _ => .refl
    split
    case h_1 => exact createNew_opens.imp (fun _ _ => opened) fun _ _ => same
    case h_2 path _ =>
      simp only [ends_bind, ends_lift, ends_get, ends_ite]
      refine ⟨fun _ => (openPinned_opens path).imp (fun _ _ => opened) fun _ _ => same, fun _ => ?_⟩
      -- The map is open even if it cannot be pinned.
      refine createNew_opens.imp ?_ fun _ _ => same
      rintro _ s ⟨fd, ho⟩
      exact (pin_handle path _ s ho).imp (fun _ _ hp => opened ⟨fd, hp⟩) fun _ _ hp => opened ⟨fd, hp⟩

theorem close_moves :
    Ends close (m, h) (fun _ s => s.1.handle = .closed) fun _ s => s.1.handle = .closed := by
  simp only [close, ends_bind, ends_object]
  split
  case h_1 hm => exact hm
  case h_2 => rfl
  case h_3 =>
    simp only [ends_bind, ends_lift, ends_change, ends_debug]
    exact ends_perform_of_forall fun reply h => .of_forall (fun _ _ => trivial) fun _ _ => trivial

-- What is said by a map that is not open.
def refusal (m : Map) : Error :=
  if m.handle = .closed then .alreadyClosed m.name else .notCreated m.name

section

variable (hn : ∀ fd, m.handle ≠ .live fd)
include hn

theorem liveFd_eq_refusal : m.liveFd = .error m.refusal := by
  unfold liveFd refusal
  cases hm : m.handle
  case live fd        => exact absurd hm (hn fd)
  case unset | closed => simp

-- Work that starts with the handle.
theorem refused {α : Type} {next : Fd → Attempt α} :
    Ends (liftM m.liveFd >>= next) h (fun _ _ => False) fun e h' => e = m.refusal ∧ h' = h := by
  simp [liveFd_eq_refusal hn]

theorem nextKey_refused (key : Option Bytes) : m.nextKey key h = .error m.refusal h := by
  unfold nextKey
  rw [liveFd_eq_refusal hn]
  rfl

theorem stepKey_refused {c : Cursor} (hc : c.done = false) :
    m.stepKey c h = (some (.error m.refusal), { c with done := true }, h) := by
  simp [stepKey, hc, nextKey_refused hn]

theorem stepEntry_refused {c : Cursor} (hc : c.done = false) :
    m.stepEntry c h = (some (.error m.refusal), { c with done := true }, h) := by
  simp [stepEntry, stepEntryWithin, stepKey_refused hn hc]

end

theorem stepKey_done {c : Cursor} (hc : c.done = true) : m.stepKey c h = (none, c, h) := by
  simp [stepKey, hc]

theorem stepEntry_done {c : Cursor} (hc : c.done = true) : m.stepEntry c h = (none, c, h) := by
  simp [stepEntry, stepEntryWithin, stepKey_done hc]

end Map

namespace MapCommand

open Handle (Moves)

variable {c : MapCommand}

-- What is said by a map that is not open. Pins can be removed, and it can be created and closed once.
def refusal? (m : Map) : MapCommand → Option Error
  | .lookupInteger _ => some <| if m.kind.isPerCpu then .unsupported .lookupInteger m.name m.kind else m.refusal
  | .lookupPerCpu _  => some <| if m.kind.isPerCpu then m.refusal else .unsupported .lookupPerCpu m.name m.kind
  | .create | .close => if m.handle = .closed then some (.alreadyClosed m.name) else none
  | .unpin | .state | .describe | .keys _ | .walk .. => none
  | _ => some m.refusal

theorem run_moves :
    Ends c.run (m, h) (fun _ s => ReflGen Moves m.handle s.1.handle) fun _ s => ReflGen Moves m.handle s.1.handle := by
  cases c
  case create   => exact ends_bind.mpr Map.create_moves
  case pin path =>
    exact ends_bind.mpr <|
      (Map.pin_handle path m.handle (m, h) rfl).imp (fun _ _ he => he ▸ .refl) fun _ _ he => he ▸ .refl
  case unpin    =>
    exact ends_bind.mpr <|
      (Map.unpin_handle m.handle (m, h) rfl).imp (fun _ _ he => he ▸ .refl) fun _ _ he => he ▸ .refl
  case close    =>
    have closed {s : Map × Host} (he : s.1.handle = .closed) : ReflGen Moves m.handle s.1.handle :=
      he ▸ .single (.close _)
    exact ends_bind.mpr <| Map.close_moves.imp (fun _ _ => closed) fun _ _ => closed
  case state | describe | keys | walk => exact .refl
  all_goals exact ends_ask.mpr (.of_forall (fun _ _ => .refl) fun _ _ => .refl)

theorem run_refused {e : Error} (hn : ∀ fd, m.handle ≠ .live fd) (hr : c.refusal? m = some e) :
    c.run.outcome m h = (.error e, m, h) := by
  refine Ends.editOutcome_eq_error ?_
  have asked {α : Type} {answer : α → Answer} {question : Map → Attempt α}
      (hq : Ends (question m) h (fun _ _ => False) fun e' h' => e' = e ∧ h' = h) :
      Ends (ask answer question) (m, h) (fun _ _ => False) fun e' s => e' = e ∧ s = (m, h) :=
    ends_ask.mpr <| hq.imp (fun _ _ => id) fun _ _ hs => ⟨hs.left, by rw [hs.right]⟩
  cases c
  case create | close =>
    obtain ⟨hc, he⟩ := Option.ite_none_right_eq_some.mp hr
    cases he
    exact ends_bind.mpr (by simp [Map.create, Map.close, hc])
  case pin =>
    cases hr
    exact ends_bind.mpr (by simp [Map.pin, Map.liveFd_eq_refusal hn])
  case unpin | state | describe | keys | walk => cases hr
  case lookupInteger =>
    cases hr
    refine asked ?_
    simp only [Map.lookupInteger, ends_bind, ends_ite, ends_throw]
    refine ⟨fun hk => by simp [hk], fun hk => ?_⟩
    rw [if_neg hk]
    exact (Map.refused hn).imp (fun _ _ => False.elim) fun _ _ => id
  case lookupPerCpu =>
    cases hr
    refine asked ?_
    simp only [Map.lookupPerCpu, ends_bind, ends_ite, ends_throw]
    refine ⟨fun hk => by simp_all, fun hk => ?_⟩
    rw [if_pos (by simpa using hk)]
    exact (Map.refused hn).imp (fun _ _ => False.elim) fun _ _ => id
  case lookupText =>
    cases hr
    refine asked ?_
    exact ends_bind.mpr <| (Map.refused hn).imp (fun _ _ => False.elim) fun _ _ => id
  all_goals
    cases hr
    exact asked (Map.refused hn)

-- An open map that cannot do what is asked of it stays as it is, and so does the machine. A handle that
-- is open can be closed, so that this cannot fail halfway.
theorem run_failed {fd : Fd} (hm : m.handle = .live fd) (b : h.Harbors m.held) :
    Ends c.run (m, h) (fun _ _ => True) fun _ s => s.1 = m ∧ s.2.machine = h.machine := by
  have w := Host.Still.refl b.faultless
  have asked {α : Type} {answer : α → Answer} {question : Map → Attempt α}
      (hq : Ends (question m) h (fun _ _ => True) fun _ => h.Still) :
      Ends (ask answer question) (m, h) (fun _ _ => True) fun _ s => s.1 = m ∧ s.2.machine = h.machine :=
    ends_ask.mpr <| hq.imp (fun _ _ _ => trivial) fun _ _ w => ⟨rfl, w.machine⟩
  have questioned {α : Type} {question : Attempt α} (hq : Maintains h.Still question) :
      Ends question h (fun _ _ => True) fun _ => h.Still :=
    (hq h w).imp (fun _ _ _ => trivial) fun _ _ => id
  cases c
  case create => exact ends_bind.mpr (by simp [Map.create, hm])
  case pin path =>
    simp only [run, Map.pin, ends_bind, ends_object, ends_liftExcept, Map.liveFd, hm, ends_lift, ends_accept,
      ends_change, ends_debug, ends_pure, true_and]
    rw [ends_perform]
    split
    case h_1 => trivial
    case h_2 he =>
      rw [Host.perform_of_faults_eq_nil _ b.faultless] at he
      exact (w.perform_settle rfl he).machine
  case unpin =>
    simp only [run, Map.unpin, ends_bind, ends_object]
    split
    case h_1 => trivial
    case h_2 =>
      simp only [ends_bind, ends_lift, ends_files, ends_change, ends_debug, ends_pure]
      split <;> trivial
  case close =>
    obtain ⟨rest, hh⟩ := b.holds
    have hh : h.Holds h ((fd, .map) ::ₘ rest) := by simpa [Map.held, hm] using hh
    simp only [run, Map.close, ends_bind, ends_object, hm, ends_change, ends_lift]
    refine hh.ends_close.imp_ok ?_
    rintro reply h' ⟨hr, _⟩
    simp [hr]
  case state | describe | keys | walk  => trivial
  case kernelInfo       => exact asked (questioned Map.kernelInfo_still)
  case insert | update | upsert => exact asked (Map.write_still _ _ _ w)
  case delete           => exact asked (Map.delete_still _ w)
  case lookup           => exact asked (questioned (Map.lookup_still _))
  case lookupInteger    => exact asked (questioned (Map.lookupInteger_still _))
  case lookupText       => exact asked (questioned (Map.lookupText_still _))
  case lookupPerCpu     => exact asked (questioned (Map.lookupPerCpu_still _))
  case nextKey          => exact asked (questioned (Map.nextKey_still _))

end MapCommand

namespace Map

open Handle (Moves)

-- What can happen to a map and to its host: calls to the map, steps of a walk over it, wherever that has
-- come to, and whatever others do to the kernel without closing its handle.
inductive Step : Map × Host → Map × Host → Prop
  | call (c : MapCommand) (m : Map) (h : Host) : Step (m, h) (c.run.outcome m h).2
  | key (c : Cursor) (m : Map) (h : Host)      : Step (m, h) (m, (m.stepKey c h).2.2)
  | entry (c : Cursor) (m : Map) (h : Host)    : Step (m, h) (m, (m.stepEntry c h).2.2)
  | others {m : Map} {h h' : Host} : h.Leads (Request.Spares m.held) h' → Step (m, h) (m, h')

-- A map that is new, or has taken over a handle, on a kernel on which anything may have happened.
structure Begins (m : Map) (h : Host) : Prop where
  reachable : h.machine.Reachable
  faultless : h.faults = []
  live {fd : Fd} : m.handle = .live fd → ∃ id, h.machine.handles.get? fd = some (.map id)

theorem Begins.harbors (b : Begins m h) : h.Harbors m.held where
  faultless  := b.faultless
  consistent := b.reachable.consistent
  held := by
    unfold held
    cases hm : m.handle
    case unset | closed => exact Multiset.zero_le _
    case live fd =>
      obtain ⟨id, hg⟩ := b.live hm
      exact Multiset.singleton_le.mpr <| (Machine.mem_held_iff b.reachable.consistent).mpr ⟨_, hg, rfl⟩

-- The handle that a map has is open at all times.
theorem Step.harbors {s s' : Map × Host} (st : Step s s') (b : s.2.Harbors s.1.held) :
    s'.2.Harbors s'.1.held ∧ ReflGen Moves s.1.handle s'.1.handle := by
  obtain ⟨rest, hh⟩ := b.holds
  cases st
  case call c m h =>
    have w := (MapCommand.run_owns (c := c) (m, h) hh).and MapCommand.run_moves
    exact ⟨.of_holds (w.imp (fun _ _ => And.left) fun _ _ => And.left).of_editOutcome,
      (w.imp (fun _ _ => And.right) fun _ _ => And.right).of_editOutcome⟩
  case key             => exact ⟨.of_holds (stepKey_holds hh), .refl⟩
  case entry           => exact ⟨.of_holds (stepEntryWithin_holds hh), .refl⟩
  case others m h h' l => exact ⟨b.leads l, .refl⟩

theorem steps_harbors {s s' : Map × Host} (st : ReflTransGen Step s s') (b : s.2.Harbors s.1.held) :
    s'.2.Harbors s'.1.held ∧ ReflTransGen Moves s.1.handle s'.1.handle := by
  -- By induction on what happens.
  induction st
  case refl => exact ⟨b, .refl⟩
  case tail _ st ih =>
    obtain ⟨b', a⟩ := st.harbors ih.left
    exact ⟨b', ih.right.trans a.to_reflTransGen⟩

structure Lifecycle (m : Map) (h : Host) : Prop where
  -- Each call takes one step at most, and nothing else takes any.
  moves (c : MapCommand) : ReflGen Moves m.handle (c.run.outcome m h).2.1.handle
  history {s : Map × Host} : ReflTransGen Step (m, h) s → ReflTransGen Moves m.handle s.1.handle
  live {fd : Fd} {s : Map × Host} : m.handle = .live fd → ReflTransGen Step (m, h) s →
    s.1.handle = .live fd ∨ s.1.handle = .closed
  closed {s : Map × Host} : m.handle = .closed → ReflTransGen Step (m, h) s → s.1.handle = .closed
  -- A map that is not open says no, to a walk once, and asks nothing of the host.
  refused {c : MapCommand} {e : Error} : (∀ fd, m.handle ≠ .live fd) → c.refusal? m = some e →
    c.run.outcome m h = (.error e, m, h)
  key_refused {c : Cursor} : (∀ fd, m.handle ≠ .live fd) → c.done = false →
    m.stepKey c h = (some (.error m.refusal), { c with done := true }, h)
  entry_refused {c : Cursor} : (∀ fd, m.handle ≠ .live fd) → c.done = false →
    m.stepEntry c h = (some (.error m.refusal), { c with done := true }, h)
  key_done {c : Cursor} : c.done = true → m.stepKey c h = (none, c, h)
  entry_done {c : Cursor} : c.done = true → m.stepEntry c h = (none, c, h)
  close_unset : m.handle = .unset → MapCommand.close.run.outcome m h = (.ok .nothing, { m with handle := .closed }, h)
  -- An open map is not created again, and what fails changes nothing.
  create_live {fd : Fd} : m.handle = .live fd → MapCommand.create.run.outcome m h = (.ok .nothing, m, h)
  failed {c : MapCommand} {fd : Fd} {e : Error} : m.handle = .live fd → (c.run.outcome m h).1 = .error e →
    (c.run.outcome m h).2.1 = m ∧ (c.run.outcome m h).2.2.machine = h.machine
  key_machine (c : Cursor) : (m.stepKey c h).2.2.machine = h.machine
  entry_machine (c : Cursor) : (m.stepEntry c h).2.2.machine = h.machine

-- Whatever is asked of a map, in whatever order, and whatever others do to the kernel meanwhile: it is opened once
-- at most, and once it is closed it stays closed. A map that is not open says no without asking the kernel. What
-- fails while it is open changes nothing.
theorem lives_once {m₀ : Map} {h₀ : Host} (b : Begins m₀ h₀) (st : ReflTransGen Step (m₀, h₀) (m, h)) :
    Lifecycle m h := by
  have b : h.Harbors m.held := (steps_harbors st b.harbors).left
  have w := Host.Still.refl b.faultless
  exact {
    moves c := ((Step.call c m h).harbors b).right
    history st := (steps_harbors st b).right
    live hm st := Handle.Moves.live (steps_harbors st b).right hm
    closed hm st := Handle.Moves.closed (steps_harbors st b).right hm
    refused := MapCommand.run_refused
    key_refused hn hc := stepKey_refused hn hc
    entry_refused hn hc := stepEntry_refused hn hc
    key_done := stepKey_done
    entry_done := stepEntry_done
    close_unset hm := Ends.editOutcome_eq_ok <| ends_bind.mpr (by simp [close, hm])
    create_live hm := Ends.editOutcome_eq_ok <| ends_bind.mpr (by simp [create, hm])
    failed hm he := (MapCommand.run_failed hm b).of_editOutcome_error he
    key_machine c := (stepKey_still c w).machine
    entry_machine c := (stepEntryWithin_still _ c w).machine }

-- A map that was created, filled and closed.
theorem lives_once_of_closed :
    let counts : Map := { name := "counts", kind := .hash, keySize := 1, valueSize := 1, maxEntries := 2 }
    let created := (MapCommand.create.run.outcome counts {}).2
    let filled := ((MapCommand.insert (.octets [1]) (.octets [2])).run.outcome created.1 created.2).2
    let closed := (MapCommand.close.run.outcome filled.1 filled.2).2
    closed.1.handle = .closed ∧ Lifecycle closed.1 closed.2 := by
  intro counts created filled closed
  have b : Begins counts {} := ⟨.start .empty, rfl, fun hm => by cases hm⟩
  refine ⟨by decide +kernel, lives_once b ?_⟩
  exact ((ReflTransGen.single (.call .create counts {})).tail (.call _ created.1 created.2)).tail
    (.call .close filled.1 filled.2)

end Map

end EbpfManager
