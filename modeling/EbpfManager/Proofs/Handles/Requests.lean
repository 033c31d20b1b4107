import EbpfManager.Proofs.Handles.Machine
import EbpfManager.Proofs.Kernel.Calls

namespace EbpfManager.Machine

variable {m m' : Machine} {fd : Fd} {id : Nat}

namespace Consistent

theorem addMap (c : m.Consistent) (map : KernelMap) : m.Becomes (m.addMap map) m.held := by
  have keeps : m.Keeps (m.addMap map) := {
    nextFd      := le_refl _
    handle _ h  := h
    program h   := h
    map {id _} h := by
      have hne : m.lastId + 1 ≠ id := by have := c.mapNumber h; omega
      exact ⟨_, by simp [Machine.addMap, Table.get?_insert, hne, h], rfl, rfl⟩ }
  refine c.becomes keeps rfl (fun h => keeps.has (c.pin h)) ?_ ?_
  case refine_1 =>
    intro id' map' h
    simp only [Machine.addMap, Table.get?_insert] at h
    split at h
    case isTrue he => exact he ▸ le_refl _
    case isFalse => exact (c.mapNumber h).trans (Nat.le_succ _)
  case refine_2 =>
    intro id' program h
    exact (c.programNumber h).trans (Nat.le_succ _)

theorem addProgram (c : m.Consistent) (program : ProgramInfo) :
    m.Becomes (m.addProgram program) m.held := by
  have keeps : m.Keeps (m.addProgram program) := {
    nextFd      := le_refl _
    handle _ h  := h
    map h       := ⟨_, h, rfl, rfl⟩
    program {id _} h := by
      have hne : m.lastId + 1 ≠ id := by have := c.programNumber h; omega
      simp [Machine.addProgram, Table.get?_insert, hne, h] }
  refine c.becomes keeps rfl (fun h => keeps.has (c.pin h)) ?_ ?_
  case refine_1 =>
    intro id' map h
    exact (c.mapNumber h).trans (Nat.le_succ _)
  case refine_2 =>
    intro id' program' h
    simp only [Machine.addProgram, Table.get?_insert] at h
    split at h
    case isTrue he => exact he ▸ le_refl _
    case isFalse => exact (c.programNumber h).trans (Nat.le_succ _)

-- Other entries, or other things to be reported about a map.
theorem setMap (c : m.Consistent) {map map' : KernelMap} (h : m.maps.get? id = some map)
    (hk : map'.kind = map.kind) (hl : map'.valueLength = map.valueLength) :
    m.Becomes (m.setMap id map') m.held := by
  have keeps : m.Keeps (m.setMap id map') := {
    nextFd      := le_refl _
    handle _ h  := h
    program h   := h
    map {id' map''} h' := by
      by_cases he : id = id'
      case pos =>
        have hm : map = map'' := by simpa [← he, h] using h'
        exact ⟨map', by simp [Machine.setMap, Table.get?_insert, he], hm ▸ hk, hm ▸ hl⟩
      case neg => exact ⟨map'', by simp [Machine.setMap, Table.get?_insert, he, h'], rfl, rfl⟩ }
  refine c.becomes keeps rfl (fun h => keeps.has (c.pin h)) ?_ c.programNumber
  intro id' map'' h'
  simp only [Machine.setMap, Table.get?_insert] at h'
  split at h'
  case isTrue he => exact he ▸ c.mapNumber h
  case isFalse => exact c.mapNumber h'

theorem mapCreate (c : m.Consistent) {a : MapAttributes} (h : m.mapCreate a = .ok (fd, m')) :
    m.Becomes m' ((fd, .map) ::ₘ m.held) := by
  obtain ⟨_, ho⟩ := mapCreate_eq_ok h
  have b := c.addMap (m.newMap a)
  have hs : (m.addMap (m.newMap a)).Has (.map (m.lastId + 1)) :=
    ⟨m.newMap a, by simp [Machine.addMap, Table.get?_insert]⟩
  cases ho
  exact b.trans (b.consistent.openHandle _ hs)

theorem programLoad (c : m.Consistent) {a : ProgramAttributes} {log log' : Option LogBuffer}
    (h : m.programLoad a log = ((.ok fd, log'), m')) :
    m.Becomes m' ((fd, .program) ::ₘ m.held) := by
  obtain ⟨program, _, ho⟩ := programLoad_eq_ok h
  have b := c.addProgram program
  have hs : (m.addProgram program).Has (.program (m.lastId + 1)) :=
    ⟨program, by simp [Machine.addProgram, Table.get?_insert]⟩
  cases ho
  exact b.trans (b.consistent.openHandle _ hs)

theorem mapUpdate (c : m.Consistent) {key value : Bytes} {flags : UpdateFlags}
    (h : m.mapUpdate fd key value flags = .ok ((), m')) : m.Becomes m' m.held := by
  obtain ⟨id, map, stored, hm, _, _, _, _, he⟩ := mapUpdate_eq_ok h
  exact he ▸ c.setMap (mapAt_eq_ok hm).right rfl rfl

theorem mapDelete (c : m.Consistent) {key : Bytes} (h : m.mapDelete fd key = .ok ((), m')) :
    m.Becomes m' m.held := by
  obtain ⟨id, map, hm, _, he⟩ := mapDelete_eq_ok h
  exact he ▸ c.setMap (mapAt_eq_ok hm).right rfl rfl

theorem reportKind (c : m.Consistent) {number : Nat} (h : m.reportKind fd number = .ok m') :
    m.Becomes m' m.held := by
  obtain ⟨id, map, hm, he⟩ := reportKind_eq_ok h
  exact he ▸ c.setMap (mapAt_eq_ok hm).right rfl rfl

theorem objectPin (c : m.Consistent) {path : Path} (h : m.objectPin fd path = .ok ((), m')) :
    m.Becomes m' m.held := by
  obtain ⟨object, files, ho, _, he⟩ := objectPin_eq_ok h
  have keeps : m.Keeps m' := by
    rw [he]
    exact { Keeps.refl m with }
  cases he
  refine c.becomes keeps rfl ?_ c.mapNumber c.programNumber
  -- The new pin leads to what the handle is open on.
  intro key object' h
  simp only [Table.get?_insert] at h
  split at h
  case isTrue =>
    cases h
    exact keeps.has (c.handle (objectAt_eq_ok ho))
  case isFalse => exact keeps.has (c.pin h)

theorem setFiles (c : m.Consistent) (files : Files.Tree) : m.Becomes { m with files } m.held :=
  have keeps : m.Keeps { m with files } := { Keeps.refl m with }
  c.becomes keeps rfl (fun h => keeps.has (c.pin h)) c.mapNumber c.programNumber

theorem objectGet (c : m.Consistent) {path : Path} (h : m.objectGet path = .ok (fd, m')) :
    ∃ kind, m.Becomes m' ((fd, kind) ::ₘ m.held) := by
  obtain ⟨object, hp, ho⟩ := objectGet_eq_ok h
  cases ho
  exact ⟨_, c.openHandle object (c.pin hp)⟩

theorem xdpAttach (c : m.Consistent) {interface : Nat} {link : Fd}
    (h : m.xdpAttach fd interface = .ok (link, m')) : m.Becomes m' ((link, .link) ::ₘ m.held) := by
  obtain ⟨id, program, hp, ho⟩ := xdpAttach_eq_ok h
  cases ho
  exact c.openHandle (.link id) ⟨program, (programAt_eq_ok hp).right⟩

theorem programFdById (c : m.Consistent) (h : m.programFdById id = .ok (fd, m')) :
    m.Becomes m' ((fd, .program) ::ₘ m.held) := by
  obtain ⟨hp, ho⟩ := programFdById_eq_ok h
  cases ho
  exact c.openHandle (.program id) hp

theorem mapFdById (c : m.Consistent) (h : m.mapFdById id = .ok (fd, m')) :
    m.Becomes m' ((fd, .map) ::ₘ m.held) := by
  obtain ⟨hm, ho⟩ := mapFdById_eq_ok h
  cases ho
  exact c.openHandle (.map id) hm

-- A handle that could be closed was open, and is not any more.
theorem of_close (c : m.Consistent) (h : m.close fd = .ok ((), m')) :
    ∃ kind, m.held = (fd, kind) ::ₘ m'.held ∧ m.Becomes m' m'.held := by
  obtain ⟨⟨object, hg⟩, _⟩ := close_eq_ok h
  obtain ⟨rest, hr⟩ := Multiset.exists_cons_of_mem <| (mem_held_iff c).mpr ⟨object, hg, rfl⟩
  obtain ⟨_, he, b⟩ := c.close hr
  cases h.symm.trans he
  exact ⟨object.handleKind, b.held ▸ hr, b.held.symm ▸ b⟩

theorem settle_same (c : m.Consistent) {x : Except CallError (Unit × Machine)}
    (h : ∀ m', x = .ok ((), m') → m.Becomes m' m.held) : m.Becomes (m.settle x).2 m.held :=
  settle_cases ⟨c, Keeps.refl m, rfl⟩ fun _ => h

theorem becomes_settle (c : m.Consistent) {α : Type} {x : Except CallError (α × Machine)}
    (h : ∀ a m', x = .ok (a, m') → ∃ held, m.held ≤ held ∧ m.Becomes m' held) :
    ∃ held, m.held ≤ held ∧ m.Becomes (m.settle x).2 held :=
  settle_cases (p := fun m' => ∃ held, m.held ≤ held ∧ m.Becomes m' held)
    ⟨_, le_refl _, c, Keeps.refl m, rfl⟩ h

-- Only closing makes a handle go away. One case for each other request: most are questions.
theorem answer_le (c : m.Consistent) {r : Request} (hr : ∀ fd, r ≠ .close fd) :
    ∃ held, m.held ≤ held ∧ m.Becomes (m.answer r).2 held := by
  have opens {fd : Fd} {kind : HandleKind} {m' : Machine} (b : m.Becomes m' ((fd, kind) ::ₘ m.held)) :
      ∃ held, m.held ≤ held ∧ m.Becomes m' held :=
    ⟨_, Multiset.le_cons_self .., b⟩
  cases r
  case mapCreate     => exact c.becomes_settle fun _ _ h => opens (c.mapCreate h)
  case mapUpdate     => exact c.becomes_settle fun _ _ h => ⟨_, le_refl _, c.mapUpdate h⟩
  case mapDelete     => exact c.becomes_settle fun _ _ h => ⟨_, le_refl _, c.mapDelete h⟩
  case objectPin     => exact c.becomes_settle fun _ _ h => ⟨_, le_refl _, c.objectPin h⟩
  case objectGet     => exact c.becomes_settle fun _ _ h => (c.objectGet h).elim fun _ b => opens b
  case xdpAttach     => exact c.becomes_settle fun _ _ h => opens (c.xdpAttach h)
  case programFdById => exact c.becomes_settle fun _ _ h => opens (c.programFdById h)
  case mapFdById     => exact c.becomes_settle fun _ _ h => opens (c.mapFdById h)
  case close fd      => exact absurd rfl (hr fd)
  case programLoad a log =>
    rcases h : m.programLoad a log with ⟨⟨reply, log'⟩, m'⟩
    cases reply
    case ok fd => exact opens (by simpa [Machine.answer, h] using c.programLoad h)
    case error =>
      have he := programLoad_eq_error h
      exact ⟨m.held, le_refl _, by simpa [Machine.answer, h, he] using ⟨c, Keeps.refl m, rfl⟩⟩
  all_goals exact ⟨_, le_refl _, c, Keeps.refl m, rfl⟩

-- A handle is closed, or none was open of this number.
theorem answer_close (c : m.Consistent) (fd : Fd) :
    (m.answer (.close fd)).2 = m ∨ ∃ kind, m.held = (fd, kind) ::ₘ (m.answer (.close fd)).2.held ∧
      m.Becomes (m.answer (.close fd)).2 (m.answer (.close fd)).2.held := by
  cases h : m.close fd
  case ok p =>
    have ha : (m.answer (.close fd)).2 = p.2 := by simp [Machine.answer, settle, h]
    exact .inr <| ha ▸ c.of_close h
  case error => exact .inl <| by simp [Machine.answer, settle, h]

theorem answer (c : m.Consistent) (r : Request) : ∃ held, m.Becomes (m.answer r).2 held := by
  by_cases hr : ∃ fd, r = .close fd
  case pos =>
    obtain ⟨fd, rfl⟩ := hr
    obtain hm | ⟨_, _, b⟩ := c.answer_close fd
    case inl => exact ⟨m.held, hm.symm ▸ ⟨c, Keeps.refl m, rfl⟩⟩
    case inr => exact ⟨_, b⟩
  case neg =>
    obtain ⟨held, _, b⟩ := c.answer_le fun fd he => hr ⟨fd, he⟩
    exact ⟨held, b⟩

end Consistent

-- The machines there can be: whatever is asked of them, and whatever happens to the files.
inductive Reachable : Machine → Prop
  | start (files : Files.Tree) : Reachable { files }
  | request {m : Machine} (r : Request) : Reachable m → Reachable (m.answer r).2
  | files {m : Machine} (files : Files.Tree) : Reachable m → Reachable { m with files }
  | reportKind {m m' : Machine} {fd : Fd} {number : Nat} :
      m.reportKind fd number = .ok m' → Reachable m → Reachable m'

theorem Reachable.consistent (r : m.Reachable) : m.Consistent := by
  induction r
  case start files          => exact consistent_new files
  case request r _ ih       => exact (ih.answer r).elim fun _ b => b.consistent
  case files files _ ih     => exact (ih.setFiles files).consistent
  case reportKind h _ ih    => exact (ih.reportKind h).consistent

end EbpfManager.Machine
