import EbpfManager.Proofs.Handles.Requests

namespace EbpfManager

open Attempt

-- That a request is about a handle which has to be open. Whether a handle is a program's may be
-- asked about any number: a snapshot can be made of a program that somebody else owns.
def Request.Uses (r : Request) (fd : Fd) : Prop :=
  match r with
  | .mapCreate a   => a.innerFd = some fd
  | .programInfo _ => False
  | r              => r.fd? = some fd

-- No handle is used after it was closed, nor closed a second time: closing uses a handle, too.
def CallRecord.Precedes (c c' : CallRecord) : Prop :=
  ∀ fd, c.request = .close fd → ¬c'.request.Uses fd

-- `m` is the machine after the calls.
structure Orderly (calls : List CallRecord) (m : Machine) : Prop where
  ok {fd reply}     : ⟨.close fd, reply⟩ ∈ calls → reply = Except.ok ()
  closed {fd reply} : ⟨.close fd, reply⟩ ∈ calls → fd < m.nextFd ∧ m.handles.get? fd = none
  order             : calls.Pairwise CallRecord.Precedes

namespace Orderly

variable {calls : List CallRecord} {m m' : Machine} {c : CallRecord}

theorem nil (m : Machine) : Orderly [] m where
  ok h     := by cases h
  closed h := by cases h
  order    := .nil

-- A number that was closed is not handed out again.
theorem keeps (o : Orderly calls m) (k : m.Keeps m') : Orderly calls m' where
  ok    := o.ok
  order := o.order
  closed {fd _} h := by
    obtain ⟨hlt, hn⟩ := o.closed h
    refine ⟨hlt.trans_le k.nextFd, ?_⟩
    by_contra hs
    obtain ⟨_, hs⟩ := Option.ne_none_iff_exists'.mp hs
    exact absurd (k.handle hlt hs) (by simp [hn])

theorem concat (o : Orderly calls m) (k : m.Keeps m')
    (hu : ∀ fd, c.request.Uses fd → m.handles.get? fd ≠ none)
    (hc : ∀ fd reply, c = ⟨.close fd, reply⟩ →
      reply = Except.ok () ∧ fd < m'.nextFd ∧ m'.handles.get? fd = none) :
    Orderly (calls ++ [c]) m' where
  ok h := by
    cases List.mem_append.mp h
    case inl h => exact o.ok h
    case inr h => exact (hc _ _ (List.mem_singleton.mp h).symm).left
  closed {fd _} h := by
    cases List.mem_append.mp h
    case inr h => exact (hc _ _ (List.mem_singleton.mp h).symm).right
    case inl h => exact (o.keeps k).closed h
  order := by
    -- What the new call uses is open, and what was closed before is not.
    refine List.pairwise_append.mpr ⟨o.order, List.pairwise_singleton .., ?_⟩
    intro c₁ h₁ c₂ h₂ fd he hs
    obtain ⟨request, reply⟩ := c₁
    subst he
    have hs := List.mem_singleton.mp h₂ ▸ hs
    exact hu fd hs (o.closed h₁).right

end Orderly

namespace Host

-- That the host has come from `h₀` in an orderly way, and that `held` are its open handles.
structure Holds (h₀ h : Host) (held : Multiset Holding) : Prop where
  faultless : h.faults = []
  becomes   : h₀.machine.Becomes h.machine held
  calls     : ∃ calls, h.calls = h₀.calls ++ calls ∧ Orderly calls h.machine

-- What comes of a call that opens a handle.
def Opens (h₀ : Host) (held : Multiset Holding) (kind : HandleKind) : Except CallError Fd → Host → Prop
  | .ok fd, h   => h₀.Holds h ((fd, kind) ::ₘ held)
  | .error _, h => h₀.Holds h held

section

variable {h₀ h : Host} {held : Multiset Holding} {kind : HandleKind}

@[simp] theorem opens_ok {fd : Fd} :
    h₀.Opens held kind (.ok fd) h ↔ h₀.Holds h ((fd, kind) ::ₘ held) :=
  Iff.rfl

@[simp] theorem opens_error {cause : CallError} :
    h₀.Opens held kind (.error cause) h ↔ h₀.Holds h held :=
  Iff.rfl

@[simp] theorem holds_note {level : LogLevel} {text : String} :
    h₀.Holds (h.note level text) held ↔ h₀.Holds h held :=
  ⟨fun hh => ⟨hh.faultless, hh.becomes, hh.calls⟩, fun hh => ⟨hh.faultless, hh.becomes, hh.calls⟩⟩

end

theorem holds_refl {h : Host} (c : h.machine.Consistent) (hf : h.faults = []) :
    h.Holds h h.machine.held where
  faultless := hf
  becomes   := ⟨c, Machine.Keeps.refl _, rfl⟩
  calls     := ⟨[], by simp, Orderly.nil _⟩

end Host

namespace Host.Holds

variable {h₀ h : Host} {held : Multiset Holding} {fd : Fd} {kind : HandleKind}

theorem consistent (hh : h₀.Holds h held) : h.machine.Consistent :=
  hh.becomes.consistent

theorem get? (hh : h₀.Holds h held) (hm : (fd, kind) ∈ held) :
    ∃ object, h.machine.handles.get? fd = some object ∧ object.handleKind = kind :=
  (Machine.mem_held_iff hh.consistent).mp (hh.becomes.held ▸ hm)

-- A call that closes nothing, on handles that are held.
theorem perform {r : Request} {held' : Multiset Holding} (hh : h₀.Holds h held)
    (hu : ∀ fd, r.Uses fd → ∃ kind, (fd, kind) ∈ held) (hc : ∀ fd, r ≠ .close fd)
    (hb : h.machine.Becomes (h.machine.answer r).2 held') : h₀.Holds (h.perform r).2 held' := by
  obtain ⟨calls, hcalls, ho⟩ := hh.calls
  rw [Host.perform_of_faults_eq_nil r hh.faultless]
  refine ⟨hh.faultless, hh.becomes.trans hb, calls ++ [_], by rw [hcalls, List.append_assoc], ?_⟩
  refine ho.concat hb.keeps ?_ ?_
  case refine_1 =>
    intro fd hr
    obtain ⟨_, hm⟩ := hu fd hr
    obtain ⟨_, hg, _⟩ := hh.get? hm
    simp [hg]
  case refine_2 =>
    intro fd reply he
    exact absurd (congrArg CallRecord.request he) (hc fd)

-- A handle that is held can be closed, and is not held any more.
theorem close (hh : h₀.Holds h ((fd, kind) ::ₘ held)) :
    (h.perform (.close fd)).1 = .ok () ∧ h₀.Holds (h.perform (.close fd)).2 held := by
  obtain ⟨calls, hcalls, ho⟩ := hh.calls
  obtain ⟨object, hg, _⟩ := hh.get? (Multiset.mem_cons_self ..)
  obtain ⟨m', hm, hb⟩ := hh.consistent.close hh.becomes.held
  have ha : h.machine.answer (.close fd) = (.ok (), m') := by
    simp [Machine.answer, Machine.settle, hm]
  rw [Host.perform_of_faults_eq_nil _ hh.faultless, ha]
  refine ⟨rfl, hh.faultless, hh.becomes.trans hb, calls ++ [_],
    by rw [hcalls, List.append_assoc], ?_⟩
  refine ho.concat hb.keeps ?_ ?_
  case refine_1 =>
    intro fd' hr
    cases hr
    simp [hg]
  case refine_2 =>
    intro fd' reply he
    have hg' : m'.handles.get? fd = none := by
      simp only [Machine.close, Machine.fails] at hm
      split at hm <;> cases hm
      simp [Table.get?_erase]
    cases he
    exact ⟨rfl, (hh.consistent.below hg).trans_le hb.keeps.nextFd, hg'⟩

-- A change of the machine that is no request.
theorem setMachine {held' : Multiset Holding} {m : Machine} (hh : h₀.Holds h held)
    (hb : h.machine.Becomes m held') : h₀.Holds { h with machine := m } held' where
  faultless := hh.faultless
  becomes   := hh.becomes.trans hb
  calls     := by
    obtain ⟨calls, hc, ho⟩ := hh.calls
    exact ⟨calls, hc, ho.keeps hb.keeps⟩

theorem setFiles (hh : h₀.Holds h held) (files : Files.Tree) :
    h₀.Holds { h with machine := { h.machine with files } } held :=
  hh.setMachine <| hh.becomes.held ▸ hh.consistent.setFiles files

theorem reply (hh : h₀.Holds h held) (r : Request) : (h.perform r).1 = (h.machine.answer r).1 := by
  rw [Host.perform_of_faults_eq_nil r hh.faultless]

-- An answer and the host after it, for calls that open a handle.
theorem opens (hh : h₀.Holds h held) {x : Except CallError (Fd × Machine)} {h' : Host}
    (hx : ∀ fd m', x = .ok (fd, m') → h.machine.Becomes m' ((fd, kind) ::ₘ h.machine.held))
    (hp : ∀ held', h.machine.Becomes (h.machine.settle x).2 held' → h₀.Holds h' held') :
    h₀.Opens held kind (h.machine.settle x).1 h' := by
  rw [← hh.becomes.held]
  cases x
  case ok p => exact hp _ (hx p.1 p.2 rfl)
  case error => exact hp _ ⟨hh.consistent, Machine.Keeps.refl _, rfl⟩

section

variable {fail : Error → Host → Prop}

-- A call that leaves the open handles alone.
theorem ends_same {r : Request} (hh : h₀.Holds h held)
    (hu : ∀ fd, r.Uses fd → ∃ kind, (fd, kind) ∈ held) (hc : ∀ fd, r ≠ .close fd)
    (hb : h.machine.Becomes (h.machine.answer r).2 h.machine.held) :
    Ends (Attempt.perform r) h (fun _ h => h₀.Holds h held) fail :=
  ends_perform.mpr <| hh.perform hu hc (hh.becomes.held ▸ hb)

-- A call that leaves the machine alone.
theorem ends_ask {r : Request} (hh : h₀.Holds h held)
    (hu : ∀ fd, r.Uses fd → ∃ kind, (fd, kind) ∈ held) (hc : ∀ fd, r ≠ .close fd)
    (ha : (h.machine.answer r).2 = h.machine) :
    Ends (Attempt.perform r) h (fun _ h => h₀.Holds h held) fail :=
  hh.ends_same hu hc <| ha.symm ▸ ⟨hh.consistent, Machine.Keeps.refl _, rfl⟩

theorem ends_close (hh : h₀.Holds h ((fd, kind) ::ₘ held)) :
    Ends (Attempt.perform (.close fd)) h (fun reply h => reply = .ok () ∧ h₀.Holds h held) fail :=
  ends_perform.mpr hh.close

theorem ends_mapCreate (hh : h₀.Holds h held) {a : MapAttributes}
    (hi : ∀ fd, a.innerFd = some fd → ∃ kind, (fd, kind) ∈ held) :
    Ends (Attempt.perform (.mapCreate a)) h (h₀.Opens held .map) fail := by
  rw [ends_perform, hh.reply]
  refine hh.opens (fun _ _ h => hh.consistent.mapCreate h) fun _ hb => ?_
  exact hh.perform hi (fun _ h => by cases h) hb

theorem ends_programLoad (hh : h₀.Holds h held) {a : ProgramAttributes} {log : Option LogBuffer} :
    Ends (Attempt.perform (.programLoad a log)) h
      (fun reply h => h₀.Opens held .program reply.1 h) fail := by
  rw [ends_perform, hh.reply]
  have hp {held'} (hb : h.machine.Becomes (h.machine.programLoad a log).2 held') :=
    hh.perform (r := .programLoad a log) (fun _ h => by cases h) (fun _ h => by cases h) hb
  simp only [Machine.answer]
  rcases hx : h.machine.programLoad a log with ⟨⟨reply, _⟩, m'⟩
  cases reply
  case ok fd => exact hp <| hh.becomes.held ▸ hx ▸ hh.consistent.programLoad hx
  case error =>
    have he := Machine.programLoad_eq_error hx
    refine hp ?_
    rw [hx, he]
    exact ⟨hh.consistent, Machine.Keeps.refl _, hh.becomes.held⟩

theorem ends_objectGet (hh : h₀.Holds h held) {path : Path} :
    Ends (Attempt.perform (.objectGet path)) h (fun reply h => ∃ kind, h₀.Opens held kind reply h)
      fail := by
  rw [ends_perform, hh.reply]
  cases hx : h.machine.objectGet path
  case ok p =>
    obtain ⟨kind, hb⟩ := hh.consistent.objectGet hx
    refine ⟨kind, hh.opens (x := h.machine.objectGet path) ?_ fun _ hb => ?_⟩
    case refine_1 => intro fd m' h; cases hx.symm.trans h; exact hb
    case refine_2 => exact hh.perform (fun _ h => by cases h) (fun _ h => by cases h) hb
  case error =>
    refine ⟨.map, hh.opens (x := h.machine.objectGet path) ?_ fun _ hb => ?_⟩
    case refine_1 => intro fd m' h; cases hx.symm.trans h
    case refine_2 => exact hh.perform (fun _ h => by cases h) (fun _ h => by cases h) hb

theorem ends_xdpAttach (hh : h₀.Holds h held) {interface : Nat} {flags : UInt32}
    (hm : (fd, kind) ∈ held) :
    Ends (Attempt.perform (.xdpAttach fd interface flags)) h (h₀.Opens held .link) fail := by
  rw [ends_perform, hh.reply]
  refine hh.opens (fun _ _ h => hh.consistent.xdpAttach h) fun _ hb => ?_
  exact hh.perform (fun _ h => ⟨kind, Option.some.inj h ▸ hm⟩) (fun _ h => by cases h) hb

theorem ends_programFdById (hh : h₀.Holds h held) {id : Nat} :
    Ends (Attempt.perform (.programFdById id)) h (h₀.Opens held .program) fail := by
  rw [ends_perform, hh.reply]
  refine hh.opens (fun _ _ h => hh.consistent.programFdById h) fun _ hb => ?_
  exact hh.perform (fun _ h => by cases h) (fun _ h => by cases h) hb

theorem ends_mapFdById (hh : h₀.Holds h held) {id : Nat} :
    Ends (Attempt.perform (.mapFdById id)) h (h₀.Opens held .map) fail := by
  rw [ends_perform, hh.reply]
  refine hh.opens (fun _ _ h => hh.consistent.mapFdById h) fun _ hb => ?_
  exact hh.perform (fun _ h => by cases h) (fun _ h => by cases h) hb

theorem ends_mapInfo (hh : h₀.Holds h held) (hm : (fd, kind) ∈ held) :
    Ends (Attempt.perform (.mapInfo fd)) h
      (fun reply h => h₀.Holds h held ∧ ∀ info, reply = .ok info → kind = .map) fail := by
  rw [ends_perform]
  refine ⟨?_, fun info hi => ?_⟩
  case refine_1 =>
    exact hh.perform (fun _ h => ⟨kind, Option.some.inj h ▸ hm⟩) (fun _ h => by cases h)
      ⟨hh.consistent, Machine.Keeps.refl _, hh.becomes.held⟩
  rw [hh.reply] at hi
  obtain ⟨⟨_, _⟩, ha, _⟩ := map_eq_ok.mp hi
  obtain ⟨object, hg, hk⟩ := hh.get? hm
  cases hg.symm.trans (Machine.mapAt_eq_ok ha).left
  exact hk.symm

theorem ends_objectPin (hh : h₀.Holds h held) {path : Path} (hm : (fd, kind) ∈ held) :
    Ends (Attempt.perform (.objectPin fd path)) h (fun _ h => h₀.Holds h held) fail := by
  refine hh.ends_same (fun _ h => ⟨kind, Option.some.inj h ▸ hm⟩) (fun _ h => by cases h) ?_
  exact hh.consistent.settle_same fun _ h => hh.consistent.objectPin h

theorem ends_mapUpdate (hh : h₀.Holds h held) {key value : Bytes} {flags : UpdateFlags}
    (hm : (fd, kind) ∈ held) :
    Ends (Attempt.perform (.mapUpdate fd key value flags)) h (fun _ h => h₀.Holds h held) fail := by
  refine hh.ends_same (fun _ h => ⟨kind, Option.some.inj h ▸ hm⟩) (fun _ h => by cases h) ?_
  exact hh.consistent.settle_same fun _ h => hh.consistent.mapUpdate h

theorem ends_mapDelete (hh : h₀.Holds h held) {key : Bytes} (hm : (fd, kind) ∈ held) :
    Ends (Attempt.perform (.mapDelete fd key)) h (fun _ h => h₀.Holds h held) fail := by
  refine hh.ends_same (fun _ h => ⟨kind, Option.some.inj h ▸ hm⟩) (fun _ h => by cases h) ?_
  exact hh.consistent.settle_same fun _ h => hh.consistent.mapDelete h

end

end Host.Holds

end EbpfManager
