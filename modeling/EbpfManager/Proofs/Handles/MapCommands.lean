import EbpfManager.Proofs.Handles.Maps
import EbpfManager.Session.Run

namespace EbpfManager

open Attempt

variable {h₀ h : Host} {rest : Multiset Holding}

namespace Map

variable {m : Map}

theorem maintains_withFd {next : Fd → Attempt α}
    (hn : ∀ fd, m.handle = .live fd → Maintains (h₀.Holds · (m.held + rest)) (next fd)) :
    Maintains (h₀.Holds · (m.held + rest)) (liftM m.liveFd >>= next) :=
  fun _ hh => ends_bind.mpr <| ends_liveFd (fun fd hm => hn fd hm _ hh) fun _ => hh

theorem write_holds {key value : Datum} {flags : UpdateFlags} :
    Maintains (h₀.Holds · (m.held + rest)) (m.write key value flags) := by
  refine maintains_withFd fun fd hm h hh => ?_
  simp only [ends_bind, ends_except]
  split
  case h_2 => exact hh
  case h_1 key _ =>
    split
    case h_2 => exact hh
    case h_1 value _ =>
      simp only [ends_ite, ends_throw, ends_bind]
      refine ⟨fun _ => hh, fun _ => (hh.ends_mapUpdate (mem_held hm)).imp_ok ?_⟩
      intro reply h hh
      cases reply <;> simpa using hh

theorem delete_holds {key : Datum} : Maintains (h₀.Holds · (m.held + rest)) (m.delete key) := by
  refine maintains_withFd fun fd hm h hh => ?_
  simp only [ends_bind, ends_except, ends_ite, ends_throw]
  refine ⟨fun _ => hh, fun _ => ?_⟩
  split
  case h_2 => exact hh
  case h_1 key _ =>
    refine (hh.ends_mapDelete (mem_held hm)).imp_ok ?_
    intro reply h hh
    cases reply <;> simpa using hh

theorem lookupOctets_holds {fd : Fd} {key : Bytes} (hm : m.handle = .live fd) :
    Maintains (h₀.Holds · (m.held + rest)) (m.lookupOctets fd key) := by
  intro h hh
  simp only [lookupOctets, ends_bind, ends_except]
  split
  case h_2 => exact hh
  case h_1 size _ =>
    refine (hh.ends_ask (r := .mapLookup fd key size) ?_ (fun _ h => by cases h) rfl).imp_ok ?_
    case refine_1 => exact fun _ h => ⟨.map, Option.some.inj h ▸ mem_held hm⟩
    case refine_2 =>
      intro reply h hh
      cases reply <;> simpa using hh

theorem lookup_holds {key : Datum} : Maintains (h₀.Holds · (m.held + rest)) (m.lookup key) := by
  refine maintains_withFd fun fd hm h hh => ?_
  simp only [ends_bind, ends_except]
  split
  case h_1 key _ => exact lookupOctets_holds hm h hh
  case h_2 => exact hh

theorem lookupInteger_holds {key : Datum} :
    Maintains (h₀.Holds · (m.held + rest)) (m.lookupInteger key) := by
  intro h hh
  simp only [lookupInteger, ends_bind, ends_ite, ends_throw]
  refine ⟨fun _ => hh, fun _ => (lookup_holds h hh).imp_ok ?_⟩
  intro value h hh
  simp only [ends_accept]
  split <;> exact hh

theorem lookupText_holds {key : Datum} :
    Maintains (h₀.Holds · (m.held + rest)) (m.lookupText key) :=
  lookup_holds.bind fun _ _ => id

theorem lookupPerCpu_holds {key : Datum} :
    Maintains (h₀.Holds · (m.held + rest)) (m.lookupPerCpu key) := by
  intro h hh
  simp only [lookupPerCpu, ends_bind, ends_ite, ends_throw, ends_pure]
  refine ⟨fun _ => hh, fun _ => (lookup_holds h hh).imp_ok ?_⟩
  exact fun _ _ hh => ⟨fun _ => hh, fun _ => hh⟩

theorem nextKey_holds {key : Option Bytes} :
    Maintains (h₀.Holds · (m.held + rest)) (m.nextKey key) := by
  refine maintains_withFd fun fd hm h hh => ?_
  have ask (h : Host) (hh : h₀.Holds h (m.held + rest)) :
      Ends (perform (.mapNextKey fd key m.keySize) >>= accept (.syscall .mapNextKey)) h
        (fun _ h => h₀.Holds h (m.held + rest)) fun _ h => h₀.Holds h (m.held + rest) := by
    rw [ends_bind]
    refine (hh.ends_ask (r := .mapNextKey fd key m.keySize) ?_ (fun _ h => by cases h) rfl).imp_ok ?_
    case refine_1 => exact fun _ h => ⟨.map, Option.some.inj h ▸ mem_held hm⟩
    case refine_2 =>
      intro reply h hh
      cases reply <;> simpa using hh
  cases key
  case none => simpa using ask h hh
  case some key =>
    simp only [ends_bind, ends_ite, ends_throw]
    exact ⟨fun _ => hh, fun _ => by simpa using ask h hh⟩

theorem stepKey_holds {c : Cursor} (hh : h₀.Holds h (m.held + rest)) :
    h₀.Holds (m.stepKey c h).2.2 (m.held + rest) := by
  unfold stepKey
  split
  case isTrue => exact hh
  case isFalse =>
    split
    case h_1 | h_2 => exact nextKey_holds.of_eq_ok hh (by assumption)
    case h_3 => exact nextKey_holds.of_eq_error hh (by assumption)

theorem valueAt_holds {key : Bytes} : Maintains (h₀.Holds · (m.held + rest)) (m.valueAt key) :=
  maintains_withFd fun _ hm => lookupOctets_holds hm

theorem stepEntryWithin_holds {bound : Nat} {c : Cursor} (hh : h₀.Holds h (m.held + rest)) :
    h₀.Holds (m.stepEntryWithin bound c h).2.2 (m.held + rest) := by
  induction bound generalizing c h
  case zero => exact hh
  case succ bound ih =>
    have hk := stepKey_holds (c := c) hh
    unfold stepEntryWithin
    split
    case h_1 hs | h_2 hs => rwa [hs] at hk
    case h_3 hs =>
      rw [hs] at hk
      split
      case h_1 => exact valueAt_holds.of_eq_ok hk (by assumption)
      case h_2 hv => exact ih (valueAt_holds.of_eq_error hk hv)
      case h_3 => exact valueAt_holds.of_eq_error hk (by assumption)

theorem takeKeys_holds {bound : Nat} {c : Cursor} (hh : h₀.Holds h (m.held + rest)) :
    h₀.Holds (m.takeKeys bound c h).2 (m.held + rest) := by
  induction bound generalizing c h
  case zero => exact hh
  case succ bound ih =>
    have hk := stepKey_holds (c := c) hh
    unfold takeKeys
    split
    case h_1 hs => rwa [hs] at hk
    case h_2 hs => rw [hs] at hk; exact ih hk

theorem editAll_holds {edits : List WalkEdit} (hh : h₀.Holds h (m.held + rest)) :
    h₀.Holds (m.editAll edits h).2 (m.held + rest) := by
  induction edits generalizing h
  case nil => exact hh
  case cons e edits ih =>
    have he : Ends (m.edit e) h (fun _ h => h₀.Holds h (m.held + rest))
        fun _ h => h₀.Holds h (m.held + rest) := by
      cases e
      case delete => exact delete_holds h hh
      case upsert => exact write_holds h hh
    have ho := ends_iff_outcome.mp he
    simp only [editAll]
    split at ho
    case h_1 ho' | h_2 ho' => rw [ho']; exact ih ho

theorem takeEntries_holds {edits : List (Nat × WalkEdit)} {bound position : Nat} {c : Cursor}
    (hh : h₀.Holds h (m.held + rest)) :
    h₀.Holds (m.takeEntries edits bound position c h).2 (m.held + rest) := by
  induction bound generalizing position c h
  case zero => exact hh
  case succ bound ih =>
    have hk : h₀.Holds (m.stepEntry c h).2.2 (m.held + rest) := stepEntryWithin_holds hh
    unfold takeEntries
    split
    case h_1 hs => rwa [hs] at hk
    case h_2 hs => rw [hs] at hk; exact ih (editAll_holds hk)

end Map

namespace MapCommand

open Map (held)

-- A question leaves the map as it is.
theorem ends_ask {answer : α → Answer} {question : Map → Attempt α} {m : Map} {h : Host}
    {ok : Answer → Map × Host → Prop} {fail : Error → Map × Host → Prop} :
    Ends (ask answer question) (m, h) ok fail ↔
      Ends (question m) h (fun a h' => ok (answer a) (m, h')) fun e h' => fail e (m, h') := by
  simp only [ask, ends_bind, ends_object, ends_lift, ends_pure]

theorem ask_owns {answer : α → Answer} {question : Map → Attempt α}
    (hq : ∀ m, Maintains (h₀.Holds · (m.held + rest)) (question m)) :
    Maintains (h₀.Owns held rest) (ask answer question) := by
  rintro ⟨m, h⟩ hh
  exact ends_ask.mpr (hq m h hh)

theorem askSafely_owns {answer : α → Answer} {question : Map → Host → α × Host}
    (hq : ∀ m h, h₀.Holds h (m.held + rest) → h₀.Holds (question m h).2 (m.held + rest)) :
    Maintains (h₀.Owns held rest) (askSafely answer question) :=
  fun s hh => hq s.1 s.2 hh

theorem run_owns {c : MapCommand} : Maintains (h₀.Owns held rest) c.run := by
  cases c
  case create   => exact Map.create_owns.bind fun _ _ => id
  case pin      => exact Map.pin_owns.bind fun _ _ => id
  case unpin    => exact Map.unpin_owns.bind fun _ _ => id
  case close    => exact Map.close_owns.bind fun _ _ => id
  case state | describe => exact fun _ hh => hh
  case kernelInfo       => exact ask_owns fun _ => Map.kernelInfo_holds
  case insert | update | upsert => exact ask_owns fun _ => Map.write_holds
  case delete           => exact ask_owns fun _ => Map.delete_holds
  case lookup           => exact ask_owns fun _ => Map.lookup_holds
  case lookupInteger    => exact ask_owns fun _ => Map.lookupInteger_holds
  case lookupText       => exact ask_owns fun _ => Map.lookupText_holds
  case lookupPerCpu     => exact ask_owns fun _ => Map.lookupPerCpu_holds
  case nextKey          => exact ask_owns fun _ => Map.nextKey_holds
  case keys =>
    unfold run
    exact askSafely_owns fun _ _ => Map.takeKeys_holds
  case walk =>
    unfold run
    exact askSafely_owns fun _ _ => Map.takeEntries_holds

theorem ask_closed {answer : α → Answer} {question : Map → Attempt α} :
    Maintains (fun s => s.1.handle = .closed) (ask answer question) := by
  rintro ⟨m, h⟩ hk
  exact ends_ask.mpr (.of_forall (fun _ _ => hk) fun _ _ => hk)

-- A map that is closed stays closed.
theorem run_closed {c : MapCommand} : Maintains (fun s => s.1.handle = .closed) c.run := by
  rintro ⟨m, h⟩ hm
  cases c
  case create | close =>
    simp only [run, Map.create, Map.close, ends_bind, ends_object]
    rw [hm]
    exact hm
  case pin =>
    simp only [run, Map.pin, ends_bind, ends_object, Map.liveFd]
    rw [hm]
    exact hm
  case unpin =>
    simp only [run, Map.unpin, ends_bind, ends_object]
    split
    case h_1 => exact hm
    case h_2 =>
      simp only [ends_bind, ends_lift, ends_files, ends_change, ends_debug, ends_pure]
      split <;> exact hm
  case state | describe | keys | walk => exact hm
  all_goals exact ask_closed _ hm

end MapCommand

end EbpfManager
