import EbpfManager.Host
import EbpfManager.Proofs.Results

namespace EbpfManager

variable {σ α β ο : Type}

-- What comes of work that starts in state `s`: its result and its last state satisfy `ok`, or its error and its
-- last state satisfy `fail`. The lemmas follow the parts that work is made of, so that `simp` takes a block of work
-- apart until calls and other blocks are left; `Ends.imp` puts in what is known about those.
def Ends (work : EStateM Error σ α) (s : σ) (ok : α → σ → Prop) (fail : Error → σ → Prop) : Prop :=
  match work s with
  | .ok a s => ok a s
  | .error e s => fail e s

section

variable {s : σ} {ok : α → σ → Prop} {fail : Error → σ → Prop}

theorem Ends.imp {work : EStateM Error σ α} {ok' : α → σ → Prop} {fail' : Error → σ → Prop}
    (w : Ends work s ok fail) (ho : ∀ a s, ok a s → ok' a s) (hf : ∀ e s, fail e s → fail' e s) :
    Ends work s ok' fail' := by
  unfold Ends at *
  split
  case h_1 h => exact ho _ _ (by simpa [h] using w)
  case h_2 h => exact hf _ _ (by simpa [h] using w)

theorem Ends.imp_ok {work : EStateM Error σ α} {ok' : α → σ → Prop} (w : Ends work s ok fail)
    (ho : ∀ a s, ok a s → ok' a s) : Ends work s ok' fail :=
  w.imp ho fun _ _ => id

theorem Ends.of_forall {work : EStateM Error σ α} (ho : ∀ a s, ok a s) (hf : ∀ e s, fail e s) :
    Ends work s ok fail := by
  unfold Ends
  split <;> simp [ho, hf]

theorem Ends.and {work : EStateM Error σ α} {ok' : α → σ → Prop} {fail' : Error → σ → Prop}
    (w : Ends work s ok fail) (w' : Ends work s ok' fail') :
    Ends work s (fun a s => ok a s ∧ ok' a s) (fun e s => fail e s ∧ fail' e s) := by
  unfold Ends at *
  split
  case h_1 h => exact ⟨by simpa [h] using w, by simpa [h] using w'⟩
  case h_2 h => exact ⟨by simpa [h] using w, by simpa [h] using w'⟩

theorem Ends.eq_ok {work : EStateM Error σ α} {s' : σ} {a : α}
    (w : Ends work s (fun a' s'' => a' = a ∧ s'' = s') fun _ _ => False) : work s = .ok a s' := by
  unfold Ends at w
  split at w
  case h_1 he =>
    obtain ⟨rfl, rfl⟩ := w
    exact he
  case h_2 => exact w.elim

@[simp] theorem ends_pure {a : α} : Ends (pure a) s ok fail ↔ ok a s :=
  Iff.rfl

@[simp] theorem ends_throw {e : Error} : Ends (throw e) s ok fail ↔ fail e s :=
  Iff.rfl

-- What work leaves is what the next work starts with; an error ends it all.
@[simp] theorem ends_bind {work : EStateM Error σ β} {next : β → EStateM Error σ α} :
    Ends (work >>= next) s ok fail ↔ Ends work s (fun b s => Ends (next b) s ok fail) fail := by
  cases h : work s <;> simp [Ends, bind, EStateM.bind, h]

@[simp] theorem ends_get {ok : σ → σ → Prop} : Ends get s ok fail ↔ ok s s :=
  Iff.rfl

@[simp] theorem ends_modify {f : σ → σ} {ok : Unit → σ → Prop} :
    Ends (modify f) s ok fail ↔ ok () (f s) :=
  Iff.rfl

@[simp] theorem ends_ite {c : Prop} [Decidable c] {work work' : EStateM Error σ α} :
    Ends (if c then work else work') s ok fail ↔
      (c → Ends work s ok fail) ∧ (¬c → Ends work' s ok fail) := by
  split <;> simp [*]

-- A step keeps what holds of the state, however it ends.
def Maintains (keep : σ → Prop) (work : EStateM Error σ α) : Prop :=
  ∀ s, keep s → Ends work s (fun _ => keep) fun _ => keep

theorem Maintains.bind {keep : σ → Prop} {work : EStateM Error σ β}
    {next : β → EStateM Error σ α} (w : Maintains keep work) (n : ∀ b, Maintains keep (next b)) :
    Maintains keep (work >>= next) :=
  fun s hk => ends_bind.mpr <| (w s hk).imp (fun b s => n b s) fun _ _ => id

theorem Maintains.of_eq_ok {keep : σ → Prop} {work : EStateM Error σ α} {s s' : σ} {a : α}
    (w : Maintains keep work) (hk : keep s) (h : work s = .ok a s') : keep s' := by
  simpa [Ends, h] using w s hk

theorem Maintains.of_eq_error {keep : σ → Prop} {work : EStateM Error σ α} {s s' : σ} {e : Error}
    (w : Maintains keep work) (hk : keep s) (h : work s = .error e s') : keep s' := by
  simpa [Ends, h] using w s hk

-- Every list of steps keeps what each step keeps.
theorem Ends.forM {ι : Type} {step : ι → EStateM Error σ PUnit} {keep : σ → Prop}
    {fail : Error → σ → Prop} (hs : ∀ i s, keep s → Ends (step i) s (fun _ => keep) fail) :
    ∀ (is : List ι) (s : σ), keep s → Ends (is.forM step) s (fun _ => keep) fail
  | [], _, hk => hk
  | i :: is, s, hk => ends_bind.mpr <| (hs i s hk).imp (fun _ s => Ends.forM hs is s) fun _ _ => id

end

section

variable {h : Host} {ok : α → Host → Prop} {fail : Error → Host → Prop}

theorem ends_perform {r : Request} {ok : r.Reply → Host → Prop} :
    Ends (Attempt.perform r) h ok fail ↔ ok (h.perform r).1 (h.perform r).2 :=
  Iff.rfl

-- Whatever the kernel answers.
theorem ends_perform_of_forall {r : Request} {ok : r.Reply → Host → Prop}
    (ho : ∀ reply h, ok reply h) : Ends (Attempt.perform r) h ok fail :=
  ho _ _

@[simp] theorem ends_note {level : LogLevel} {text : String} {ok : Unit → Host → Prop} :
    Ends (Attempt.note level text) h ok fail ↔ ok () (h.note level text) :=
  Iff.rfl

@[simp] theorem ends_debug {text : String} {ok : Unit → Host → Prop} :
    Ends (Attempt.debug text) h ok fail ↔ ok () (h.note .debug text) :=
  Iff.rfl

@[simp] theorem ends_except {x : Except Error α} :
    Ends (liftM x : Attempt α) h ok fail ↔
      match x with
      | .ok a => ok a h
      | .error e => fail e h := by
  cases x <;> rfl

@[simp] theorem ends_accept {ε : Type} {wrap : ε → Error} {x : Except ε α} :
    Ends (Attempt.accept wrap x) h ok fail ↔
      match x with
      | .ok a => ok a h
      | .error cause => fail (wrap cause) h := by
  cases x <;> rfl

@[simp] theorem ends_orElseClean {work : Attempt α} {clean : Host → Host} :
    Ends (work.orElseClean clean) h ok fail ↔ Ends work h ok (fun e h => fail e (clean h)) := by
  cases hw : work h <;> simp [Ends, Attempt.orElseClean, hw]

@[simp] theorem ends_files {wrap : CallError → Error}
    {work : Files.Tree → Except CallError Files.Tree} {ok : Unit → Host → Prop} :
    Ends (Attempt.files wrap work) h ok fail ↔
      match work h.machine.files with
      | .ok files => ok () { h with machine := { h.machine with files } }
      | .error cause => fail (wrap cause) h := by
  simp only [Attempt.files, ends_bind, ends_get, ends_accept]
  cases work h.machine.files <;> simp

-- Work that is run inside other work ends as its outcome says.
theorem ends_iff_outcome {work : Attempt α} :
    Ends work h ok fail ↔
      match work.outcome h with
      | (.ok a, h) => ok a h
      | (.error e, h) => fail e h := by
  cases hw : work h <;> simp [Ends, Attempt.outcome, hw]

theorem Ends.of_outcome_ok {work : Attempt α} {a : α} (w : Ends work h ok fail)
    (he : (work.outcome h).1 = .ok a) : ok a (work.outcome h).2 := by
  have w := ends_iff_outcome.mp w
  split at w
  case h_1 hr => rw [hr] at he ⊢; cases he; exact w
  case h_2 hr => rw [hr] at he; cases he

theorem Ends.of_outcome_error {work : Attempt α} {e : Error} (w : Ends work h ok fail)
    (he : (work.outcome h).1 = .error e) : fail e (work.outcome h).2 := by
  have w := ends_iff_outcome.mp w
  split at w
  case h_1 hr => rw [hr] at he; cases he
  case h_2 hr => rw [hr] at he ⊢; cases he; exact w

theorem Attempt.exists_eq_ok {work : Attempt α} {a : α} (he : (work.outcome h).1 = .ok a) :
    ∃ h', work h = .ok a h' := by
  cases hw : work h
  case ok _ h' =>
    simp only [outcome, hw] at he
    cases he
    exact ⟨h', rfl⟩
  case error => simp [outcome, hw] at he

-- What comes of work that is followed by work on nothing but its result.
theorem Attempt.outcome_bind {work : Attempt α} {next : α → Attempt β} {f : α → Except Error β} (h : Host)
    (hf : ∀ a h', ((next a).outcome h').1 = f a) : ((work >>= next).outcome h).1 = (work.outcome h).1 >>= f := by
  cases he : work h
  case ok a h' =>
    have hn := hf a h'
    simp only [outcome, bind, EStateM.bind, he] at hn ⊢
    exact hn
  case error e h' =>
    simp only [outcome, bind, EStateM.bind, he]
    rfl

end

section

variable {object : ο} {h : Host} {ok : α → ο × Host → Prop} {fail : Error → ο × Host → Prop}

@[simp] theorem ends_object {ok : ο → ο × Host → Prop} :
    Ends Edit.object (object, h) ok fail ↔ ok object (object, h) :=
  Iff.rfl

@[simp] theorem ends_change {f : ο → ο} {ok : Unit → ο × Host → Prop} :
    Ends (Edit.change f) (object, h) ok fail ↔ ok () (f object, h) :=
  Iff.rfl

@[simp] theorem ends_lift {work : Attempt α} :
    Ends (liftM work : Edit ο α) (object, h) ok fail ↔
      Ends work h (fun a h => ok a (object, h)) (fun e h => fail e (object, h)) := by
  cases hw : work h <;> simp [Ends, liftM, monadLift, MonadLift.monadLift, hw]

@[simp] theorem ends_liftExcept {x : Except Error α} :
    Ends (liftM x : Edit ο α) (object, h) ok fail ↔
      match x with
      | .ok a => ok a (object, h)
      | .error e => fail e (object, h) := by
  cases x <;> rfl

theorem ends_iff_editOutcome {work : Edit ο α} :
    Ends work (object, h) ok fail ↔
      match Edit.outcome work object h with
      | (.ok a, s) => ok a s
      | (.error e, s) => fail e s := by
  cases hw : work (object, h) <;> simp [Ends, Edit.outcome, hw]

theorem Ends.of_editOutcome_ok {work : Edit ο α} {a : α} (w : Ends work (object, h) ok fail)
    (he : (work.outcome object h).1 = .ok a) : ok a (work.outcome object h).2 := by
  have w := ends_iff_editOutcome.mp w
  split at w
  case h_1 hr => rw [hr] at he ⊢; cases he; exact w
  case h_2 hr => rw [hr] at he; cases he

theorem Ends.of_editOutcome_error {work : Edit ο α} {e : Error} (w : Ends work (object, h) ok fail)
    (he : (work.outcome object h).1 = .error e) : fail e (work.outcome object h).2 := by
  have w := ends_iff_editOutcome.mp w
  split at w
  case h_1 hr => rw [hr] at he; cases he
  case h_2 hr => rw [hr] at he ⊢; cases he; exact w

-- Work that can only fail, and work that cannot fail.
theorem Ends.exists_editOutcome_error {work : Edit ο α} {fail : Error → ο × Host → Prop}
    (w : Ends work (object, h) (fun _ _ => False) fail) :
    ∃ e s, work.outcome object h = (.error e, s) ∧ fail e s := by
  have w := ends_iff_editOutcome.mp w
  split at w
  case h_1 => exact w.elim
  case h_2 hr => exact ⟨_, _, hr, w⟩

theorem Ends.exists_editOutcome_ok {work : Edit ο α} {ok : α → ο × Host → Prop}
    (w : Ends work (object, h) ok fun _ _ => False) : ∃ a s, work.outcome object h = (.ok a, s) ∧ ok a s := by
  have w := ends_iff_editOutcome.mp w
  split at w
  case h_1 hr => exact ⟨_, _, hr, w⟩
  case h_2 => exact w.elim

-- Work that is refused at once.
theorem Ends.editOutcome_eq_error {work : Edit ο α} {e : Error}
    (w : Ends work (object, h) (fun _ _ => False) fun e' s => e' = e ∧ s = (object, h)) :
    work.outcome object h = (.error e, object, h) := by
  obtain ⟨_, _, hr, rfl, rfl⟩ := w.exists_editOutcome_error
  exact hr

theorem Ends.editOutcome_eq_ok {work : Edit ο α} {a : α} {s : ο × Host}
    (w : Ends work (object, h) (fun a' s' => a' = a ∧ s' = s) fun _ _ => False) :
    work.outcome object h = (.ok a, s) := by
  obtain ⟨_, _, hr, rfl, rfl⟩ := w.exists_editOutcome_ok
  exact hr

-- What holds either way.
theorem Ends.of_editOutcome {work : Edit ο α} {p : ο × Host → Prop}
    (w : Ends work (object, h) (fun _ s => p s) fun _ s => p s) : p (work.outcome object h).2 := by
  cases he : (work.outcome object h).1
  case ok    => exact w.of_editOutcome_ok he
  case error => exact w.of_editOutcome_error he

end

end EbpfManager
