import EbpfManager.Proofs.Requests.Asks
import EbpfManager.Session.Run

namespace EbpfManager

open Attempt (Asks)

-- That a request does not concern the entries of a map.
def Request.Quiet : Request → Prop
  | .mapLookup .. | .mapNextKey .. | .mapUpdate .. | .mapDelete .. => False
  | _                                                              => True

-- That a request concerns no pins either.
def Request.Plain : Request → Prop
  | .objectPin .. => False
  | r             => r.Quiet

-- That a request is about the entries of a map that is open, and whether it can only look at them.
def Request.Accesses (m : Map) : Request → Prop
  | .mapLookup fd .. | .mapNextKey fd .. | .mapUpdate fd .. | .mapDelete fd _ => m.handle = .live fd
  | _                                                                      => False

def Request.Reads (m : Map) : Request → Prop
  | .mapLookup fd .. | .mapNextKey fd .. => m.handle = .live fd
  | _                                    => False

variable {p : Request → Prop} {m : Map}

theorem Request.Plain.quiet {r : Request} (hr : r.Plain) : r.Quiet := by
  cases r
  case objectPin => exact hr.elim
  all_goals exact hr

theorem Request.Reads.accesses {r : Request} (hr : r.Reads m) : r.Accesses m := by
  cases r
  case mapLookup | mapNextKey => exact hr
  all_goals exact hr.elim

theorem Request.Accesses.live {r : Request} (hr : r.Accesses m) :
    ∃ fd, m.handle = .live fd ∧ r.fd? = some fd := by
  cases r
  case mapLookup | mapNextKey | mapUpdate | mapDelete => exact ⟨_, hr, rfl⟩
  all_goals exact hr.elim

namespace Map

open Request (Plain Quiet)

theorem drop_leads (m : Map) (h : Host) : h.Leads Quiet (m.drop h) := by
  unfold drop
  split
  case h_1 => exact .refl
  case h_2 =>
    split
    case h_1 he => exact .of_perform (r := .close _) trivial he
    case h_2 he => exact .note .warn _ <| .of_perform (r := .close _) trivial he

-- Nothing is asked of the kernel unless the map is open.
theorem asks_liveFd {next : Fd → Attempt α} (n : ∀ fd, m.handle = .live fd → Asks p (next fd)) :
    Asks p (liftM m.liveFd >>= next) := by
  unfold liveFd
  split
  case h_1 fd hm => exact n fd hm
  case h_2 | h_3 => exact .throw _

theorem countCpus_asks (m : Map) : Asks Quiet m.countCpus :=
  .ite (fun _ => .bind (.perform trivial) fun _ => .accept ..) fun _ => .pure _

theorem release_asks (fd : Fd) : Asks Quiet (release fd) :=
  .bind (.perform trivial) fun _ => .pure _

theorem infoOrRelease_asks (wrap : CallError → Error) (fd : Fd) :
    Asks Quiet (infoOrRelease wrap fd) := by
  refine .bind (.perform trivial) fun reply => ?_
  cases reply
  case ok => exact .pure _
  case error => exact .bind (release_asks fd) fun _ => .throw _

theorem ofInfo_asks (fd : Fd) (info : MapInfo) : Asks Quiet (ofInfo fd info) := by
  unfold ofInfo
  split
  case h_1 => exact .bind (release_asks fd) fun _ => .throw _
  case h_2 => exact .bind (.orElseClean (countCpus_asks _) (drop_leads _)) fun _ => .pure _

theorem ofPath_asks (path : Path) : Asks Quiet (ofPath path) := by
  refine .bind (.perform trivial) fun _ => .bind (.accept ..) fun fd => ?_
  exact .bind (infoOrRelease_asks _ fd) fun info => .bind (ofInfo_asks fd info) fun _ => .pure _

theorem kernelInfo_plain (m : Map) : Asks Plain m.kernelInfo :=
  asks_liveFd fun _ _ => .bind (.perform trivial) fun _ => .accept ..

theorem kernelInfo_asks (m : Map) : Asks Quiet m.kernelInfo :=
  m.kernelInfo_plain.mono fun _ => Plain.quiet

theorem openPinned_asks (path : Path) : Edit.Asks Quiet (openPinned path) := by
  refine .object fun m => .bind (.lift (.perform trivial)) fun _ => .bind (.lift (.accept ..)) fun fd => ?_
  refine .bind (.lift (infoOrRelease_asks _ fd)) fun info => .ite (fun _ => ?_) fun _ => ?_
  case refine_1 => exact .bind (.change _) fun _ => .lift (.debug _)
  case refine_2 => exact .bind (.lift (release_asks fd)) fun _ => .throw _

theorem pin_asks (path : Path) : Edit.Asks Quiet (pin path) := by
  refine .object fun m => .bind (.liftExcept _) fun fd => .bind (.lift (.perform trivial)) fun _ => ?_
  exact .bind (.lift (.accept ..)) fun _ => .bind (.lift (.debug _)) fun _ => .change _

theorem createTemplate_plain (m : Map) : Asks Plain m.createTemplate := by
  refine .ite (fun _ => ?_) fun _ => .pure _
  split
  case h_1 => exact .throw _
  case h_2 => exact .bind (.perform trivial) fun _ => .bind (.accept ..) fun _ => .pure _

theorem releaseTemplate_plain (m : Map) (template : Option Fd) :
    Asks Plain (m.releaseTemplate template) := by
  cases template
  case none => exact .pure _
  case some fd =>
    refine .bind (.perform trivial) fun reply => ?_
    cases reply
    case ok => exact .pure _
    case error => exact .note ..

theorem createNew_plain : Edit.Asks Plain createNew := by
  refine .object fun m => .bind (.lift (createTemplate_plain m)) fun template => ?_
  refine .bind (.lift (.perform trivial)) fun _ => .bind (.lift (releaseTemplate_plain m template)) fun _ => ?_
  exact .bind (.lift (.accept ..)) fun _ => .bind (.change _) fun _ => .lift (.debug _)

theorem createTemplate_asks (m : Map) : Asks Quiet m.createTemplate :=
  m.createTemplate_plain.mono fun _ => Plain.quiet

theorem releaseTemplate_asks (m : Map) (template : Option Fd) : Asks Quiet (m.releaseTemplate template) :=
  (m.releaseTemplate_plain template).mono fun _ => Plain.quiet

theorem createNew_asks : Edit.Asks Quiet createNew :=
  createNew_plain.mono fun _ => Plain.quiet

theorem create_asks : Edit.Asks Quiet create := by
  refine .object fun m => ?_
  split
  case h_1 => exact .pure _
  case h_2 => exact .throw _
  case h_3 =>
    refine .bind (.lift (countCpus_asks m)) fun _ => .bind (.change _) fun _ => ?_
    split
    case h_1 => exact createNew_asks
    case h_2 path _ =>
      refine .bind (.lift .get) fun h => .ite (fun _ => openPinned_asks path) fun _ => ?_
      exact .bind createNew_asks fun _ => pin_asks path

theorem unpin_plain : Edit.Asks Plain unpin := by
  refine .object fun m => ?_
  split
  case h_1 => exact .throw _
  case h_2 => exact .bind (.lift (.files ..)) fun _ => .bind (.change _) fun _ => .lift (.debug _)

theorem unpin_asks : Edit.Asks Quiet unpin :=
  unpin_plain.mono fun _ => Plain.quiet

theorem close_plain : Edit.Asks Plain close := by
  refine .object fun m => ?_
  split
  case h_1 => exact .throw _
  case h_2 => exact .change _
  case h_3 =>
    refine .bind (.change _) fun _ => .bind (.lift (.perform trivial)) fun _ => ?_
    exact .bind (.lift (.accept ..)) fun _ => .lift (.debug _)

theorem close_asks : Edit.Asks Quiet close :=
  close_plain.mono fun _ => Plain.quiet

theorem write_asks (m : Map) (key value : Datum) (flags : UpdateFlags) :
    Asks (Request.Accesses m) (m.write key value flags) := by
  refine asks_liveFd fun fd hm => .bind (.except _) fun key => .bind (.except _) fun value => ?_
  exact .guard fun _ => .bind (.perform hm) fun _ => .accept ..

theorem delete_asks (m : Map) (key : Datum) : Asks (Request.Accesses m) (m.delete key) := by
  refine asks_liveFd fun fd hm => .guard fun _ => .bind (.except _) fun key => ?_
  exact .bind (.perform hm) fun _ => .accept ..

theorem edit_asks (m : Map) (e : WalkEdit) : Asks (Request.Accesses m) (m.edit e) := by
  cases e
  case delete => exact delete_asks ..
  case upsert => exact write_asks ..

theorem lookupOctets_asks {fd : Fd} (hm : m.handle = .live fd) (key : Bytes) :
    Asks (Request.Reads m) (m.lookupOctets fd key) :=
  .bind (.except _) fun _ => .bind (.perform hm) fun _ => .accept ..

theorem lookup_asks (m : Map) (key : Datum) : Asks (Request.Reads m) (m.lookup key) :=
  asks_liveFd fun _ hm => .bind (.except _) fun key => lookupOctets_asks hm key

theorem lookupInteger_asks (m : Map) (key : Datum) : Asks (Request.Reads m) (m.lookupInteger key) := by
  unfold lookupInteger
  exact .guard fun _ => .bind (lookup_asks m key) fun _ => .accept ..

theorem lookupText_asks (m : Map) (key : Datum) : Asks (Request.Reads m) (m.lookupText key) :=
  .bind (lookup_asks m key) fun _ => .pure _

theorem lookupPerCpu_asks (m : Map) (key : Datum) : Asks (Request.Reads m) (m.lookupPerCpu key) := by
  unfold lookupPerCpu
  exact .guard fun _ => .bind (lookup_asks m key) fun _ => .guard fun _ => .pure _

theorem nextKey_asks (m : Map) (key : Option Bytes) : Asks (Request.Reads m) (m.nextKey key) := by
  refine asks_liveFd fun fd hm => ?_
  have ask : Asks (Request.Reads m) (Attempt.perform (.mapNextKey fd key m.keySize) >>=
      Attempt.accept (.syscall .mapNextKey)) :=
    .bind (.perform hm) fun _ => .accept ..
  cases key
  case none => exact ask
  case some key => exact .guard fun _ => ask

theorem stepKey_leads (m : Map) (c : Cursor) (h : Host) :
    h.Leads (Request.Reads m) (m.stepKey c h).2.2 := by
  unfold stepKey
  split
  case isTrue => exact .refl
  case isFalse =>
    split
    case h_1 he | h_2 he => exact (nextKey_asks m _).of_eq_ok he
    case h_3 he => exact (nextKey_asks m _).of_eq_error he

theorem valueAt_asks (m : Map) (key : Bytes) : Asks (Request.Reads m) (m.valueAt key) :=
  asks_liveFd fun _ hm => lookupOctets_asks hm key

theorem stepEntryWithin_leads (m : Map) (bound : Nat) (c : Cursor) (h : Host) :
    h.Leads (Request.Reads m) (m.stepEntryWithin bound c h).2.2 := by
  induction bound generalizing c h
  case zero => exact .refl
  case succ bound ih =>
    have hk := stepKey_leads m c h
    unfold stepEntryWithin
    split
    case h_1 he | h_2 he => rwa [he] at hk
    case h_3 he =>
      rw [he] at hk
      split
      case h_1 hv => exact hk.trans <| (valueAt_asks m _).of_eq_ok hv
      case h_2 hv => exact (hk.trans <| (valueAt_asks m _).of_eq_error hv).trans (ih ..)
      case h_3 hv => exact hk.trans <| (valueAt_asks m _).of_eq_error hv

theorem takeKeys_leads (m : Map) (bound : Nat) (c : Cursor) (h : Host) :
    h.Leads (Request.Reads m) (m.takeKeys bound c h).2 := by
  induction bound generalizing c h
  case zero => exact .refl
  case succ bound ih =>
    have hk := stepKey_leads m c h
    unfold takeKeys
    split
    case h_1 he => rwa [he] at hk
    case h_2 he => rw [he] at hk; exact hk.trans (ih ..)

theorem editAll_leads (m : Map) (edits : List WalkEdit) (h : Host) :
    h.Leads (Request.Accesses m) (m.editAll edits h).2 := by
  induction edits generalizing h
  case nil => exact .refl
  case cons e edits ih => exact ((edit_asks m e).outcome h).trans (ih _)

theorem takeEntries_leads (m : Map) (edits : List (Nat × WalkEdit)) (bound position : Nat)
    (c : Cursor) (h : Host) :
    h.Leads (Request.Accesses m) (m.takeEntries edits bound position c h).2 := by
  induction bound generalizing position c h
  case zero => exact .refl
  case succ bound ih =>
    have hk : h.Leads (Request.Accesses m) (m.stepEntry c h).2.2 :=
      (stepEntryWithin_leads ..).mono fun _ => Request.Reads.accesses
    unfold takeEntries
    split
    case h_1 he => rwa [he] at hk
    case h_2 he => rw [he] at hk; exact (hk.trans <| editAll_leads ..).trans (ih ..)

end Map

namespace MapCommand

-- That a command is about entries, and whether it can only look at them.
def Accesses : MapCommand → Prop
  | .insert .. | .update .. | .upsert .. | .delete _ | .walk ..                           => True
  | .lookup _ | .lookupInteger _ | .lookupText _ | .lookupPerCpu _ | .nextKey _ | .keys _ => True
  | _                                                                                     => False

def Reads : MapCommand → Prop
  | .lookup _ | .lookupInteger _ | .lookupText _ | .lookupPerCpu _ | .nextKey _ | .keys _ => True
  | _                                                                                     => False

-- Questions leave the map as it is.
theorem outcome_ask {answer : α → Answer} {question : Map → Attempt α} (m : Map) (h : Host) :
    (ask answer question).outcome m h =
      (answer <$> ((question m).outcome h).1, m, ((question m).outcome h).2) := by
  cases hq : question m h <;>
    simp [ask, Edit.outcome, Attempt.outcome, Edit.object, bind, EStateM.bind, liftM, monadLift,
      MonadLift.monadLift, hq, pure, EStateM.pure, Functor.map, Except.map]

theorem ask_leads {answer : α → Answer} {question : Map → Attempt α} {h : Host} (w : Asks p (question m)) :
    h.Leads p ((ask answer question).outcome m h).2.2 := by
  rw [outcome_ask]
  exact w.outcome h

theorem ask_asks {answer : α → Answer} {question : Map → Attempt α}
    (hq : ∀ m, Asks p (question m)) : Edit.Asks p (ask answer question) :=
  .object fun m => .bind (.lift (hq m)) fun _ => .pure _

theorem run_quiet {c : MapCommand} (hc : ¬c.Accesses) : Edit.Asks Request.Quiet c.run := by
  cases c
  case create           => exact .bind Map.create_asks fun _ => .pure _
  case pin              => exact .bind (Map.pin_asks _) fun _ => .pure _
  case unpin            => exact .bind Map.unpin_asks fun _ => .pure _
  case close            => exact .bind Map.close_asks fun _ => .pure _
  case state | describe => exact .object fun _ => .pure _
  case kernelInfo       => exact ask_asks Map.kernelInfo_asks
  all_goals exact absurd trivial hc

theorem run_reads {c : MapCommand} (hc : c.Reads) (m : Map) (h : Host) :
    h.Leads (Request.Reads m) (c.run.outcome m h).2.2 := by
  cases c
  case keys limit    => exact m.takeKeys_leads limit {} h
  case lookup        => exact ask_leads (m.lookup_asks _)
  case lookupInteger => exact ask_leads (m.lookupInteger_asks _)
  case lookupText    => exact ask_leads (m.lookupText_asks _)
  case lookupPerCpu  => exact ask_leads (m.lookupPerCpu_asks _)
  case nextKey       => exact ask_leads (m.nextKey_asks _)
  all_goals exact hc.elim

theorem run_accesses {c : MapCommand} (hc : c.Accesses) (m : Map) (h : Host) :
    h.Leads (Request.Accesses m) (c.run.outcome m h).2.2 := by
  by_cases hr : c.Reads
  case pos => exact (run_reads hr m h).mono fun _ => Request.Reads.accesses
  case neg =>
    cases c
    case insert | update | upsert => exact ask_leads (m.write_asks ..)
    case delete => exact ask_leads (m.delete_asks _)
    case walk edits limit => exact m.takeEntries_leads edits limit 0 {} h
    case lookup | lookupInteger | lookupText | lookupPerCpu | nextKey | keys => exact absurd trivial hr
    all_goals exact hc.elim

theorem run_leads (c : MapCommand) (m : Map) (h : Host) :
    h.Leads (fun _ => True) (c.run.outcome m h).2.2 := by
  by_cases hc : c.Accesses
  case pos => exact (run_accesses hc m h).mono fun _ _ => trivial
  case neg => exact ((run_quiet hc).outcome m h).mono fun _ _ => trivial

end MapCommand

end EbpfManager
