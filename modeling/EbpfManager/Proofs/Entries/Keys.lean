import EbpfManager.Proofs.Entries.Calls

namespace EbpfManager

open Attempt (Asks Yields)

namespace Map

variable {m : Map} {id : Nat} {map : KernelMap} {h h' : Host} {k : Bytes → Prop} {p : Request → Prop}

namespace Sees

-- Work on entries changes nothing about a map but its entries.
theorem leads (o : m.Sees id map h) (l : h.Leads (Request.Accesses m) h') :
    ∃ map', map'.info = map.info ∧ map'.kind = map.kind ∧ m.Sees id map' h' := by
  obtain ⟨map', hm, hi, hk⟩ := l.info o.sane o.there
  exact ⟨map', hi, hk, l.sane o.sane, l.handles_of_accesses o.sane.faultless ▸ o.handle, hm,
    o.mirrors.congr hi hk⟩

theorem encodeKey_eq_ok (o : m.Sees id map h) {key : Datum} {bytes : Bytes} (hk : m.encodeKey key = .ok bytes) :
    map.encodeKey key = .ok bytes := by
  rwa [Map.encodeKey_eq o.mirrors o.wellFormed, mapError_eq_ok] at hk

-- The kernel gives keys of the map.
theorem nextKey_yields (o : m.Sees id map h) (key : Option Bytes) :
    Yields (m.nextKey key) h fun next _ =>
      ∀ bytes, next = some bytes → ∃ value, map.entries.get? bytes = some value := by
  obtain ⟨fd, hm, ho⟩ := o.handle
  have ask : Yields (Attempt.perform (.mapNextKey fd key m.keySize) >>= Attempt.accept (.syscall .mapNextKey)) h
      fun next _ => ∀ bytes, next = some bytes → ∃ value, map.entries.get? bytes = some value := by
    refine .perform o.sane (.accept ?_)
    rintro _ hr bytes rfl
    simp only [Machine.answer, Machine.mapNextKey, Machine.mapAt_eq ho o.there] at hr
    have hk : bytes ∈ map.entries.keys := by
      cases key
      case none => exact List.mem_of_head? (Except.ok.inj hr)
      case some key =>
        obtain ⟨e, he, rfl⟩ := Option.map_eq_some_iff.mp (Except.ok.inj hr)
        exact List.mem_map_of_mem (Table.mem_of_next? he)
    obtain ⟨⟨bytes, value⟩, he, rfl⟩ := List.mem_map.mp hk
    exact ⟨value, o.wellFormed.sorted.get?_of_mem he⟩
  unfold nextKey
  simp only [liveFd, hm]
  cases key
  case none => exact ask
  case some key =>
    simp only
    split
    case isTrue  => trivial
    case isFalse => exact ask

end Sees

-- What is known of the keys that reach the kernel, and of the requests with them.
structure Conducts (m : Map) (h : Host) (k : Bytes → Prop) (p : Request → Prop) : Prop where
  encoded {key : Datum} {bytes : Bytes} : m.encodeKey key = .ok bytes → k bytes
  yielded {key : Option Bytes} {h' : Host} : h.Leads (Request.Accesses m) h' →
    Yields (m.nextKey key) h' fun next _ => ∀ bytes, next = some bytes → k bytes
  lookup {fd : Fd} {key : Bytes} {size : Nat} : m.handle = .live fd → k key → m.bufferSize = .ok size →
    p (.mapLookup fd key size)
  update {fd : Fd} {key : Bytes} {value : Datum} {bytes : Bytes} {flags : UpdateFlags} :
    m.handle = .live fd → k key → m.encodeValue value = .ok bytes → p (.mapUpdate fd key bytes flags)
  delete {fd : Fd} {key : Bytes} : m.handle = .live fd → k key → p (.mapDelete fd key)
  next {fd : Fd} {key : Option Bytes} : m.handle = .live fd → (∀ bytes, key = some bytes → k bytes) →
    p (.mapNextKey fd key m.keySize)

namespace Conducts

section

variable (c : m.Conducts h k p)

include c

theorem leads (l : h.Leads (Request.Accesses m) h') : m.Conducts h' k p :=
  { c with yielded l' := c.yielded (l.trans l') }

theorem lookupOctets_asks {fd : Fd} {key : Bytes} (hm : m.handle = .live fd) (hk : k key) :
    Asks p (m.lookupOctets fd key) :=
  .bindExcept fun _ hs => .bind (.perform (c.lookup hm hk hs)) fun _ => .accept ..

theorem valueAt_asks {key : Bytes} (hk : k key) : Asks p (m.valueAt key) :=
  asks_liveFd fun _ hm => c.lookupOctets_asks hm hk

-- A key of another length is not passed on.
theorem nextKey_asks {key : Option Bytes} (hk : ∀ bytes, key = some bytes → bytes.length = m.keySize → k bytes) :
    Asks p (m.nextKey key) := by
  refine asks_liveFd fun fd hm => ?_
  have ask (hk : ∀ bytes, key = some bytes → k bytes) :
      Asks p (Attempt.perform (.mapNextKey fd key m.keySize) >>= Attempt.accept (.syscall .mapNextKey)) :=
    .bind (.perform (c.next hm hk)) fun _ => .accept ..
  cases key
  case none => exact ask nofun
  case some key =>
    refine .ite (fun _ => ⟨fun _ => .refl⟩) fun hl => ask fun bytes he => hk bytes he ?_
    cases he
    exact not_not.mp hl

theorem write_asks (key value : Datum) (flags : UpdateFlags) : Asks p (m.write key value flags) := by
  refine asks_liveFd fun fd hm => .bindExcept fun key hk => .bindExcept fun value hv => ?_
  exact .guard fun _ => .bind (.perform (c.update hm (c.encoded hk) hv)) fun _ => .accept ..

theorem delete_asks (key : Datum) : Asks p (m.delete key) := by
  refine asks_liveFd fun fd hm => .guard fun _ => .bindExcept fun key hk => ?_
  exact .bind (.perform (c.delete hm (c.encoded hk))) fun _ => .accept ..

theorem edit_asks (e : WalkEdit) : Asks p (m.edit e) := by
  cases e
  case delete => exact c.delete_asks _
  case upsert => exact c.write_asks ..

theorem lookup_asks (key : Datum) : Asks p (m.lookup key) :=
  asks_liveFd fun _ hm => .bindExcept fun _ hk => c.lookupOctets_asks hm (c.encoded hk)

theorem lookupInteger_asks (key : Datum) : Asks p (m.lookupInteger key) := by
  unfold lookupInteger
  exact .guard fun _ => .bind (c.lookup_asks key) fun _ => .accept ..

theorem lookupText_asks (key : Datum) : Asks p (m.lookupText key) :=
  .bind (c.lookup_asks key) fun _ => .pure _

theorem lookupPerCpu_asks (key : Datum) : Asks p (m.lookupPerCpu key) := by
  unfold lookupPerCpu
  exact .guard fun _ => .bind (c.lookup_asks key) fun _ => .guard fun _ => .pure _

theorem stepKey_leads {cursor : Cursor} (hc : ∀ bytes, cursor.last = some bytes → k bytes) :
    h.Leads p (m.stepKey cursor h).2.2 ∧ (∀ bytes, (m.stepKey cursor h).2.1.last = some bytes → k bytes) ∧
      ∀ bytes, (m.stepKey cursor h).1 = some (.ok bytes) → k bytes := by
  unfold stepKey
  split
  case isTrue => exact ⟨.refl, hc, by simp⟩
  case isFalse =>
    have w := c.nextKey_asks fun bytes he _ => hc bytes he
    have y : Yields (m.nextKey cursor.last) h _ := c.yielded .refl
    split
    case h_1 he =>
      rw [Yields, Ends, he] at y
      exact ⟨w.of_eq_ok he, by simpa using y, by simpa using y⟩
    case h_2 he => exact ⟨w.of_eq_ok he, hc, by simp⟩
    case h_3 he => exact ⟨w.of_eq_error he, hc, by simp⟩

end

theorem stepEntryWithin_leads (c : m.Conducts h k p) (bound : Nat) {cursor : Cursor}
    (hc : ∀ bytes, cursor.last = some bytes → k bytes) :
    h.Leads p (m.stepEntryWithin bound cursor h).2.2 ∧
      ∀ bytes, (m.stepEntryWithin bound cursor h).2.1.last = some bytes → k bytes := by
  induction bound generalizing cursor h
  case zero => exact ⟨.refl, hc⟩
  case succ bound ih =>
    obtain ⟨l, hc', hk⟩ := c.stepKey_leads hc
    have l' := (m.stepKey_leads cursor h).mono fun _ => Request.Reads.accesses
    unfold stepEntryWithin
    split
    case h_1 he | h_2 he =>
      simp only [he] at l hc'
      exact ⟨l, hc'⟩
    case h_3 key cursor' h' he =>
      simp only [he] at l hc' l'
      have w := c.valueAt_asks (hk key (by rw [he]))
      split
      case h_1 hv => exact ⟨l.trans (w.of_eq_ok hv), hc'⟩
      case h_2 hv =>
        have l₂ := ((m.valueAt_asks key).of_eq_error hv).mono fun _ => Request.Reads.accesses
        obtain ⟨l₃, hc₃⟩ := ih (c.leads (l'.trans l₂)) hc'
        exact ⟨(l.trans (w.of_eq_error hv)).trans l₃, hc₃⟩
      case h_3 hv => exact ⟨l.trans (w.of_eq_error hv), hc'⟩

theorem takeKeys_leads (c : m.Conducts h k p) (bound : Nat) (cursor : Cursor)
    (hc : ∀ bytes, cursor.last = some bytes → k bytes) : h.Leads p (m.takeKeys bound cursor h).2 := by
  induction bound generalizing cursor h
  case zero => exact .refl
  case succ bound ih =>
    obtain ⟨l, hc', -⟩ := c.stepKey_leads hc
    have l' := (m.stepKey_leads cursor h).mono fun _ => Request.Reads.accesses
    unfold takeKeys
    split
    case h_1 he => simpa only [he] using l
    case h_2 he =>
      simp only [he] at l hc' l'
      exact l.trans (ih (c.leads l') _ hc')

theorem editAll_leads (c : m.Conducts h k p) (edits : List WalkEdit) : h.Leads p (m.editAll edits h).2 := by
  induction edits generalizing h
  case nil => exact .refl
  case cons e edits ih =>
    exact ((c.edit_asks e).outcome h).trans (ih (c.leads ((m.edit_asks e).outcome h)))

theorem takeEntries_leads (c : m.Conducts h k p) (edits : List (Nat × WalkEdit)) (bound position : Nat)
    (cursor : Cursor) (hc : ∀ bytes, cursor.last = some bytes → k bytes) :
    h.Leads p (m.takeEntries edits bound position cursor h).2 := by
  induction bound generalizing position cursor h
  case zero => exact .refl
  case succ bound ih =>
    obtain ⟨l, hc'⟩ := c.stepEntryWithin_leads (h.machine.entryCount + 1) hc
    have l' := (m.stepEntryWithin_leads (h.machine.entryCount + 1) cursor h).mono fun _ => Request.Reads.accesses
    unfold takeEntries stepEntry
    split
    case h_1 he => simpa only [he] using l
    case h_2 he =>
      simp only [he] at l hc' l'
      have c' := c.leads l'
      exact (l.trans (c'.editAll_leads _)).trans (ih (c'.leads (m.editAll_leads ..)) (position + 1) _ hc')

theorem run_leads (c : m.Conducts h k p) {command : MapCommand} (hc : command.Accesses)
    (hn : ∀ bytes, command = .nextKey (some bytes) → bytes.length = m.keySize → k bytes) :
    h.Leads p (command.run.outcome m h).2.2 := by
  cases command
  case keys limit    => exact c.takeKeys_leads limit {} nofun
  case walk edits limit => exact c.takeEntries_leads edits limit 0 {} nofun
  case nextKey       => exact MapCommand.ask_leads (c.nextKey_asks fun _ he => hn _ (congrArg MapCommand.nextKey he))
  case insert | update | upsert => exact MapCommand.ask_leads (c.write_asks ..)
  case delete        => exact MapCommand.ask_leads (c.delete_asks _)
  case lookup        => exact MapCommand.ask_leads (c.lookup_asks _)
  case lookupInteger => exact MapCommand.ask_leads (c.lookupInteger_asks _)
  case lookupText    => exact MapCommand.ask_leads (c.lookupText_asks _)
  case lookupPerCpu  => exact MapCommand.ask_leads (c.lookupPerCpu_asks _)
  all_goals exact hc.elim

end Conducts

end Map

end EbpfManager
