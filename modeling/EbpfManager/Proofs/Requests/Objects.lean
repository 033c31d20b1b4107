import EbpfManager.Proofs.Loading.Filling
import EbpfManager.Proofs.Requests.Maps

namespace EbpfManager

open Attempt (Asks)
open Request (Quiet)

namespace Program

theorem dropLink_leads (p : Program) (h : Host) : h.Leads Quiet (p.dropLink h) := by
  unfold dropLink
  split
  case h_1 => exact .refl
  case h_2 =>
    split
    case h_1 he => exact .of_perform (r := .close _) trivial he
    case h_2 he => exact .note .warn _ <| .of_perform (r := .close _) trivial he

theorem drop_leads (p : Program) (h : Host) : h.Leads Quiet (p.drop h) := by
  refine (dropLink_leads p h).trans ?_
  unfold drop
  dsimp only
  split
  case h_1 => exact .refl
  case h_2 =>
    split
    case h_1 he => exact .of_perform (r := .close _) trivial he
    case h_2 he => exact .note .warn _ <| .of_perform (r := .close _) trivial he

theorem submit_asks (p : Program) : Asks Quiet p.submit := by
  refine .bind (.perform trivial) fun (reply, _) => ?_
  cases reply
  case ok => exact .pure _
  case error =>
    refine .ite (fun _ => .throw _) fun _ => .ite (fun _ => .throw _) fun _ => ?_
    exact .bind (.perform trivial) fun (_, _) => .accept ..

theorem load_asks : Edit.Asks Quiet load := by
  refine .object fun p => ?_
  split
  case h_1 | h_2 | h_3 => exact .throw _
  case h_4 =>
    exact .bind (.lift (submit_asks p)) fun _ => .bind (.change _) fun _ => .lift (.debug _)

-- What is left of attaching a program of the right kind.
theorem attachTo_asks (p : Program) (fd : Fd) (iface : String) (flags : XdpFlags) :
    Edit.Asks Quiet (do
      match ← Attempt.perform (.interfaceIndex iface) with
      | none => throw (.interfaceNotFound iface)
      | some interface =>
        let reply ← Attempt.perform (.xdpAttach fd interface flags)
        let link ← Attempt.accept (fun cause =>
          if cause.errno? = some Errno.noDevice then .interfaceNotFound iface
          else .attachFailed p.name iface cause) reply
        Attempt.debug s!"attached program `{p.name}` to `{iface}` (ifindex {interface})"
        Edit.change ({ · with attachment := some ⟨iface, interface, link⟩ }) : Edit Program Unit) := by
  refine .bind (.lift (.perform trivial)) fun interface => ?_
  cases interface
  case none => exact .throw _
  case some =>
    refine .bind (.lift (.perform trivial)) fun _ => .bind (.lift (.accept ..)) fun _ => ?_
    exact .bind (.lift (.debug _)) fun _ => .change _

theorem attachWith_asks (iface : String) (flags : XdpFlags) :
    Edit.Asks Quiet (attachWith iface flags) := by
  refine .object fun p => .bind (.lift (.except _)) fun fd => ?_
  cases p.attachment
  case none => exact .guard fun _ => attachTo_asks ..
  case some => exact .bind (.throw _) fun _ => .guard fun _ => attachTo_asks ..

theorem attach_asks (iface : String) : Edit.Asks Quiet (attach iface) :=
  .object fun _ => attachWith_asks ..

theorem detach_asks : Edit.Asks Quiet detach := by
  refine .object fun p => ?_
  split
  case h_1 => exact .throw _
  case h_2 =>
    refine .bind (.change _) fun _ => .bind (.lift (.perform trivial)) fun _ => ?_
    exact .bind (.lift (.accept ..)) fun _ => .lift (.debug _)

theorem pin_asks (path : Path) : Edit.Asks Quiet (pin path) := by
  refine .object fun p => .bind (.lift (.except _)) fun fd => .bind (.lift (.perform trivial)) fun _ => ?_
  exact .bind (.lift (.accept ..)) fun _ => .bind (.lift (.debug _)) fun _ => .change _

theorem unpin_asks : Edit.Asks Quiet unpin := by
  refine .object fun p => ?_
  split
  case h_1 => exact .throw _
  case h_2 => exact .bind (.lift (.files ..)) fun _ => .bind (.change _) fun _ => .lift (.debug _)

-- What is left of closing a program that has no link.
theorem closeHandle_asks (p : Program) :
    Edit.Asks Quiet (do
      Edit.change ({ · with handle := .closed })
      match p.handle.fd? with
      | none => return
      | some fd =>
        Attempt.accept (.syscall .close) (← Attempt.perform (.close fd))
        Attempt.debug s!"closed program `{p.name}` (fd {fd})" : Edit Program Unit) := by
  refine .bind (.change _) fun _ => ?_
  split
  case h_1 => exact .pure _
  case h_2 =>
    refine .bind (.lift (.perform trivial)) fun _ => ?_
    exact .bind (.lift (.accept ..)) fun _ => .lift (.debug _)

theorem close_asks : Edit.Asks Quiet close := by
  refine .object fun p => .guard fun _ => .ite (fun _ => ?_) fun _ => ?_
  case refine_1 => exact .bind detach_asks fun _ => closeHandle_asks p
  case refine_2 => exact closeHandle_asks p

end Program

theorem dropMaps_leads (maps : Table String Map) (h : Host) : h.Leads Quiet (dropMaps maps h) := by
  have key (ms : List Map) (h : Host) : h.Leads Quiet (ms.foldl (fun h map => map.drop h) h) := by
    induction ms generalizing h
    case nil => exact .refl
    case cons m ms ih => exact (m.drop_leads h).trans (ih _)
  exact key _ h

-- What takes a place may be in the place of something else, which is dropped.
theorem replace_leads (map : Option Map) (h : Host) :
    h.Leads Quiet ((map.map (·.drop h)).getD h) := by
  cases map
  case none => exact .refl
  case some map => exact map.drop_leads h

namespace Snapshot

theorem drop_leads (s : Snapshot) (h : Host) : h.Leads Quiet (s.drop h) := by
  refine .trans ?_ (dropMaps_leads ..)
  split
  case isFalse => exact .refl
  case isTrue =>
    split
    case h_1 he => exact .of_perform (r := .close _) trivial he
    case h_2 he => exact .note .warn _ <| .of_perform (r := .close _) trivial he

theorem openMap_asks (id : Nat) : Asks Quiet (openMap id) := by
  refine .bind (.perform trivial) fun _ => .bind (.accept ..) fun fd => ?_
  refine .bind (Map.infoOrRelease_asks _ fd) fun info => .ite (fun _ => ?_) fun _ => ?_
  case refine_1 => exact .bind (.note ..) fun _ => .bind (Map.release_asks fd) fun _ => .pure _
  case refine_2 => exact .bind (Map.ofInfo_asks fd info) fun _ => .pure _

theorem gather_asks (ids : List Nat) (maps : Table String Map) : Asks Quiet (gather ids maps) := by
  induction ids generalizing maps
  case nil => exact .pure _
  case cons id ids ih =>
    refine .bind (.orElseClean (openMap_asks id) (dropMaps_leads _)) fun map => ?_
    cases map
    case none => exact ih _
    case some map => exact .bind (.modify (replace_leads _)) fun _ => ih _

theorem build_asks (fd : Fd) (ownsHandle : Bool) : Asks Quiet (build fd ownsHandle) :=
  .bind (.perform trivial) fun _ => .bind (.accept ..) fun _ => .bind (gather_asks ..) fun _ => .pure _

theorem ofId_asks (id : Nat) : Asks Quiet (ofId id) := by
  refine .bind (.perform trivial) fun _ => .bind (.accept ..) fun fd => ?_
  exact .orElseClean (build_asks ..) fun _ => .perform trivial

theorem ofProgram_asks (p : Program) : Asks Quiet (ofProgram p) :=
  .bind (.except _) fun _ => build_asks ..

end Snapshot

namespace Assembly

variable {options : Options}

theorem addMap_asks (d : MapDefinition) : Edit.Asks Quiet (addMap options d) where
  ends := by
    intro (a, h)
    refine ends_addMap.mpr <| (Map.create_asks.ends (declare options d, h)).imp ?_ ?_
    case refine_1 => exact fun _ _ l => l.trans (replace_leads ..)
    case refine_2 => exact fun _ s l => l.trans (s.1.drop_leads _)

theorem addMaps_asks (ds : List MapDefinition) : Edit.Asks Quiet (addMaps options ds) := by
  induction ds
  case nil => exact .pure _
  case cons d ds ih => exact .bind (addMap_asks d) fun _ => ih

theorem build_asks (o : ObjectFile) : Edit.Asks Quiet (build options o) :=
  .bind (addMaps_asks _) fun _ => .object fun _ => .lift (.except _)

theorem unpin_leads (maps : Table String Map) (h : Host) (name : String) :
    h.Leads Quiet (unpin maps h name).2 := by
  unfold unpin
  split
  case h_1 => exact .refl
  case h_2 map _ =>
    have l := Map.unpin_asks.outcome map h
    split
    case h_1 he => rwa [he] at l
    case h_2 he =>
      rw [he] at l
      exact .note .warn _ l

theorem undo_leads (a : Assembly) (h : Host) : h.Leads Quiet (a.undo h) := by
  have key (names : List String) (s : Table String Map × Host) :
      s.2.Leads Quiet (names.foldl (fun s name => unpin s.1 s.2 name) s).2 := by
    induction names generalizing s
    case nil => exact .refl
    case cons name names ih => exact (unpin_leads s.1 s.2 name).trans (ih _)
  exact (key a.pinned (a.maps, h)).trans (dropMaps_leads ..)

end Assembly

namespace Collection

theorem load_asks (data : Bytes) : Edit.Asks Quiet (load data) where
  ends := by
    intro (c, h)
    refine ends_load (fun _ => .refl) (fun _ _ _ => .refl) fun o _ _ => ?_
    refine ((Assembly.build_asks o).ends ({}, h)).imp ?_ ?_
    case refine_1 => exact fun _ _ l text => .note .debug text l
    case refine_2 => exact fun _ s l => l.trans (s.1.undo_leads _)

theorem loadFile_asks (path : Path) : Edit.Asks Quiet (loadFile path) :=
  .bind (.lift .get) fun _ => .bind (.lift (.accept ..)) fun data =>
    .bind (.lift (.note ..)) fun _ => load_asks data

theorem loadEach_leads (ps : List (String × Program)) (h : Host) :
    h.Leads Quiet (loadEach ps h).2.2 := by
  induction ps generalizing h
  case nil => exact .refl
  case cons e ps ih => exact (Program.load_asks.outcome e.2 h).trans (ih _)

theorem loadPrograms_asks : Edit.Asks Quiet loadPrograms where
  ends := fun (c, h) => loadEach_leads c.programs.entries h

theorem drop_leads (c : Collection) (h : Host) : h.Leads Quiet (c.drop h) := by
  have key (ps : List Program) (h : Host) : h.Leads Quiet (ps.foldl (fun h p => p.drop h) h) := by
    induction ps generalizing h
    case nil => exact .refl
    case cons p ps ih => exact (p.drop_leads h).trans (ih _)
  exact (dropMaps_leads c.maps h).trans (key ..)

end Collection

theorem ProgramCommand.run_asks (c : ProgramCommand) : Edit.Asks Quiet c.run := by
  cases c
  case load   => exact .bind Program.load_asks fun _ => .pure _
  case attach iface flags =>
    cases flags
    case none   => exact .bind (Program.attach_asks iface) fun _ => .pure _
    case some flags => exact .bind (Program.attachWith_asks iface flags) fun _ => .pure _
  case detach => exact .bind Program.detach_asks fun _ => .pure _
  case pin    => exact .bind (Program.pin_asks _) fun _ => .pure _
  case unpin  => exact .bind Program.unpin_asks fun _ => .pure _
  case close  => exact .bind Program.close_asks fun _ => .pure _
  case state  => exact .object fun _ => .pure _

theorem CollectionCommand.run_asks (c : CollectionCommand) : Edit.Asks Quiet c.run := by
  cases c
  case load         => exact .bind (Collection.load_asks _) fun _ => .pure _
  case loadFile     => exact .bind (Collection.loadFile_asks _) fun _ => .pure _
  case loadPrograms => exact .bind Collection.loadPrograms_asks fun _ => .pure _
  case state | find => exact .object fun _ => .pure _

end EbpfManager
