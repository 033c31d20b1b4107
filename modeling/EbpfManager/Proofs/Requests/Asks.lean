import EbpfManager.Proofs.Endings

namespace EbpfManager

open Attempt

variable {α β ο : Type} {p q : Request → Prop}

namespace Host

-- That a host has come from `h` by requests that satisfy `p`, and by changes of files.
inductive Leads (p : Request → Prop) (h : Host) : Host → Prop
  | refl : Leads p h h
  | request {h' : Host} (r : Request) : p r → Leads p h h' → Leads p h (h'.perform r).2
  | note {h' : Host} (level : LogLevel) (text : String) : Leads p h h' → Leads p h (h'.note level text)
  | files {h' : Host} (files : Files.Tree) : Leads p h h' →
      Leads p h { h' with machine := { h'.machine with files } }

namespace Leads

variable {h h' h'' : Host}

theorem trans (l : h.Leads p h') (l' : h'.Leads p h'') : h.Leads p h'' := by
  induction l'
  case refl                  => exact l
  case request r hr _ ih     => exact .request r hr ih
  case note level text _ ih  => exact .note level text ih
  case files files _ ih      => exact .files files ih

theorem mono (l : h.Leads p h') (hpq : ∀ r, p r → q r) : h.Leads q h' := by
  induction l
  case refl                  => exact .refl
  case request r hr _ ih     => exact .request r (hpq r hr) ih
  case note level text _ ih  => exact .note level text ih
  case files files _ ih      => exact .files files ih

theorem perform {r : Request} (hr : p r) : h.Leads p (h.perform r).2 :=
  .request r hr .refl

theorem of_perform {r : Request} {reply : r.Reply} (hr : p r) (he : h.perform r = (reply, h')) :
    h.Leads p h' := by
  have hl : h.Leads p (h.perform r).2 := perform hr
  rwa [he] at hl

-- Nothing is out of order on a host without faults.
theorem faultless (l : h.Leads p h') (hf : h.faults = []) : h'.faults = [] := by
  induction l
  case refl              => exact hf
  case request r _ _ ih  => rw [perform_of_faults_eq_nil r ih]; exact ih
  case note ih           => exact ih
  case files ih          => exact ih

-- What every request and every change of files keeps is kept.
theorem keep {k : Machine → Prop} (l : h.Leads p h') (hf : h.faults = [])
    (answer : ∀ m r, p r → k m → k (m.answer r).2)
    (files : ∀ m files, k m → k { m with files }) (hk : k h.machine) : k h'.machine := by
  induction l
  case refl              => exact hk
  case request r hr l ih =>
    rw [perform_of_faults_eq_nil r (l.faultless hf)]
    exact answer _ r hr ih
  case note ih           => exact ih
  case files ih          => exact files _ _ ih

-- Requests are added to the calls.
theorem calls (l : h.Leads p h') : ∃ calls, h'.calls = h.calls ++ calls ∧ ∀ c ∈ calls, p c.request := by
  induction l
  case refl              => exact ⟨[], by simp, by simp⟩
  case request r hr _ ih =>
    obtain ⟨calls, he, hp⟩ := ih
    refine ⟨calls ++ [⟨r, _⟩], (congrArg (· ++ [_]) he).trans (List.append_assoc ..), fun c hc => ?_⟩
    cases List.mem_append.mp hc
    case inl hc => exact hp c hc
    case inr hc => exact List.mem_singleton.mp hc ▸ hr
  case note ih           => exact ih
  case files ih          => exact ih

end Leads

end Host

namespace Attempt

structure Asks (p : Request → Prop) (work : Attempt α) : Prop where
  ends h : Ends work h (fun _ h' => h.Leads p h') fun _ h' => h.Leads p h'

namespace Asks

variable {work : Attempt α} {h h' : Host}

theorem mono (w : Asks p work) (hpq : ∀ r, p r → q r) : Asks q work where
  ends h := (w.ends h).imp (fun _ _ l => l.mono hpq) fun _ _ l => l.mono hpq

theorem of_eq_ok {a : α} (w : Asks p work) (he : work h = .ok a h') : h.Leads p h' := by
  simpa [Ends, he] using w.ends h

theorem of_eq_error {e : Error} (w : Asks p work) (he : work h = .error e h') : h.Leads p h' := by
  simpa [Ends, he] using w.ends h

theorem outcome (w : Asks p work) (h : Host) : h.Leads p (work.outcome h).2 := by
  have w := ends_iff_outcome.mp (w.ends h)
  split at w
  case h_1 he | h_2 he => rwa [he]

protected theorem pure (a : α) : Asks p (pure a : Attempt α) where
  ends _ := .refl

protected theorem throw (e : Error) : Asks p (throw e : Attempt α) where
  ends _ := .refl

protected theorem bind {next : α → Attempt β} (w : Asks p work) (n : ∀ a, Asks p (next a)) :
    Asks p (work >>= next) where
  ends h := ends_bind.mpr <| (w.ends h).imp
    (fun a h' l => ((n a).ends h').imp (fun _ _ l' => l.trans l') fun _ _ l' => l.trans l') fun _ _ l => l

protected theorem ite {c : Prop} [Decidable c] {work' : Attempt α} (w : c → Asks p work)
    (w' : ¬c → Asks p work') : Asks p (if c then work else work') := by
  split
  case isTrue h => exact w h
  case isFalse h => exact w' h

-- Work that is given up at once under a condition.
protected theorem guard {c : Prop} [Decidable c] {e : Error} {next : PUnit → Attempt α}
    (n : ∀ a, Asks p (next a)) : Asks p (if c then throw e >>= next else next ⟨⟩) :=
  .ite (fun _ => .bind (.throw e) n) fun _ => n _

protected theorem perform {r : Request} (hr : p r) : Asks p (perform r) where
  ends _ := .perform hr

protected theorem except (x : Except Error α) : Asks p (liftM x : Attempt α) := by
  cases x <;> exact ⟨fun _ => .refl⟩

-- What is done with a result, if there is one.
protected theorem bindExcept {x : Except Error α} {next : α → Attempt β}
    (n : ∀ a, x = .ok a → Asks p (next a)) :
    Asks p (liftM x >>= next) := by
  cases x
  case ok a    => exact n a rfl
  case error e => exact .throw e

protected theorem accept {ε : Type} (wrap : ε → Error) (x : Except ε α) : Asks p (accept wrap x) := by
  cases x <;> exact ⟨fun _ => .refl⟩

protected theorem note (level : LogLevel) (text : String) : Asks p (note level text) where
  ends _ := .note level text .refl

protected theorem debug (text : String) : Asks p (debug text) :=
  .note .debug text

protected theorem get : Asks p (get : Attempt Host) where
  ends _ := .refl

protected theorem modify {f : Host → Host} (hf : ∀ h : Host, h.Leads p (f h)) :
    Asks p (modify f : Attempt Unit) where
  ends := hf

protected theorem orElseClean {clean : Host → Host} (w : Asks p work)
    (hc : ∀ h : Host, h.Leads p (clean h)) : Asks p (work.orElseClean clean) where
  ends h := ends_orElseClean.mpr <| (w.ends h).imp (fun _ _ l => l) fun _ h' l => l.trans (hc h')

protected theorem files (wrap : CallError → Error)
    (work : Files.Tree → Except CallError Files.Tree) : Asks p (files wrap work) where
  ends h := by
    rw [ends_files]
    split
    case h_1 files _ => exact .files files .refl
    case h_2 => exact .refl

end Asks

end Attempt

namespace Edit

structure Asks (p : Request → Prop) (work : Edit ο α) : Prop where
  ends s : Ends work s (fun _ s' => s.2.Leads p s'.2) fun _ s' => s.2.Leads p s'.2

namespace Asks

variable {work : Edit ο α}

theorem mono (w : Asks p work) (hpq : ∀ r, p r → q r) : Asks q work where
  ends s := (w.ends s).imp (fun _ _ l => l.mono hpq) fun _ _ l => l.mono hpq

theorem outcome (w : Asks p work) (object : ο) (h : Host) :
    h.Leads p (Edit.outcome work object h).2.2 := by
  have w := ends_iff_editOutcome.mp (w.ends (object, h))
  split at w
  case h_1 he | h_2 he => rwa [he]

protected theorem pure (a : α) : Asks p (pure a : Edit ο α) where
  ends _ := .refl

protected theorem throw (e : Error) : Asks p (throw e : Edit ο α) where
  ends _ := .refl

protected theorem bind {next : α → Edit ο β} (w : Asks p work) (n : ∀ a, Asks p (next a)) :
    Asks p (work >>= next) where
  ends s := ends_bind.mpr <| (w.ends s).imp
    (fun a s' l => ((n a).ends s').imp (fun _ _ l' => l.trans l') fun _ _ l' => l.trans l') fun _ _ l => l

protected theorem ite {c : Prop} [Decidable c] {work' : Edit ο α} (w : c → Asks p work)
    (w' : ¬c → Asks p work') : Asks p (if c then work else work') := by
  split
  case isTrue h => exact w h
  case isFalse h => exact w' h

protected theorem guard {c : Prop} [Decidable c] {e : Error} {next : PUnit → Edit ο α}
    (n : ∀ a, Asks p (next a)) : Asks p (if c then throw e >>= next else next ⟨⟩) :=
  .ite (fun _ => .bind (.throw e) n) fun _ => n _

protected theorem lift {work : Attempt α} (w : Attempt.Asks p work) :
    Asks p (liftM work : Edit ο α) where
  ends s := ends_lift.mpr (w.ends s.2)

protected theorem liftExcept (x : Except Error α) : Asks p (liftM x : Edit ο α) := by
  cases x <;> exact ⟨fun _ => .refl⟩

protected theorem change (f : ο → ο) : Asks p (Edit.change f) where
  ends _ := .refl

-- Work on an object begins with a look at it.
protected theorem object {next : ο → Edit ο α} (n : ∀ object, Asks p (next object)) :
    Asks p (Edit.object >>= next) :=
  .bind ⟨fun _ => .refl⟩ n

end Asks

end Edit

end EbpfManager
