import EbpfManager.Proofs.Handles.Sessions
import EbpfManager.Proofs.Requests.Objects

namespace EbpfManager

open Request (Quiet)

-- That a command is work of the objects of the session: it neither tampers with the kernel nor gets
-- around the owners of the handles.
structure Command.Genuine (c : Command) : Prop where
  plain  : c.Plain
  honest : ∀ fd number, c ≠ .reportKind fd number

-- That a command is about entries.
def Command.Accesses : Command → Prop
  | .onMap _ command => command.Accesses
  | _                => False

namespace Session

variable {s : Session}

theorem dropMap_leads (s : Session) (id : String) : s.host.Leads Quiet (s.dropMap id).host := by
  unfold dropMap
  split
  case h_1     => exact .refl
  case h_2 map _ => exact map.drop_leads _

theorem dropProgram_leads (s : Session) (id : String) : s.host.Leads Quiet (s.dropProgram id).host := by
  unfold dropProgram
  split
  case h_1     => exact .refl
  case h_2 program _ => exact program.drop_leads _

theorem dropCollection_leads (s : Session) (id : String) : s.host.Leads Quiet (s.dropCollection id).host := by
  unfold dropCollection
  split
  case h_1     => exact .refl
  case h_2 c _ => exact c.drop_leads _

theorem dropSnapshot_leads (s : Session) (id : String) : s.host.Leads Quiet (s.dropSnapshot id).host := by
  unfold dropSnapshot
  split
  case h_1     => exact .refl
  case h_2 i _ => exact i.drop_leads _

-- What is dropped if it is named.
theorem dropNamed_leads {drop : Session → String → Session}
    (hd : ∀ (s : Session) id, s.host.Leads Quiet (drop s id).host) (s : Session) (id : Option String) :
    s.host.Leads Quiet ((id.map (drop s)).getD s).host := by
  cases id
  case none    => exact .refl
  case some id => exact hd s id

theorem dropAll_leads (map program collection snapshot : Option String) :
    s.host.Leads Quiet (s.dropAll map program collection snapshot).2.host := by
  let s₁ := (map.map s.dropMap).getD s
  let s₂ := (program.map s₁.dropProgram).getD s₁
  let s₃ := (collection.map s₂.dropCollection).getD s₂
  have l₁ := dropNamed_leads dropMap_leads s map
  have l₂ := dropNamed_leads dropProgram_leads s₁ program
  have l₃ := dropNamed_leads dropCollection_leads s₂ collection
  have l₄ := dropNamed_leads dropSnapshot_leads s₃ snapshot
  exact ((l₁.trans l₂).trans l₃).trans l₄

theorem openMap_leads {id : String} {work : Attempt Map} (w : Attempt.Asks Quiet work) :
    s.host.Leads Quiet (s.openMap id work).2.host := by
  have l := w.outcome s.host
  unfold openMap
  split
  case h_1 he => rwa [he] at l
  case h_2 host he =>
    rw [he] at l
    exact l.trans (dropMap_leads { s with host } id)

theorem snapshotWork_asks {source : SnapshotSource} {work : Attempt Snapshot}
    (h : s.snapshotWork source = some work) : Attempt.Asks Quiet work := by
  cases source
  case program place =>
    obtain ⟨p, _, hp⟩ := Option.map_eq_some_iff.mp h
    exact hp ▸ Snapshot.ofProgram_asks p
  case fd fd => cases h; exact Snapshot.build_asks fd false
  case id id => cases h; exact Snapshot.ofId_asks id

theorem takeSnapshot_leads (source : SnapshotSource) (id : Option String) :
    s.host.Leads Quiet (s.takeSnapshot source id).2.host := by
  unfold takeSnapshot
  split
  case h_1 => exact .refl
  case h_2 work hw =>
    have l := (snapshotWork_asks hw).outcome s.host
    split
    case h_1 he => rwa [he] at l
    case h_2 i host he =>
      rw [he] at l
      cases id
      case none    => exact l.trans (i.drop_leads host)
      case some id => exact l.trans (dropSnapshot_leads { s with host } id)

theorem onFiles_leads (work : Files.Tree → Except CallError Files.Tree) :
    s.host.Leads Quiet (s.onFiles work).2.host := by
  unfold onFiles onMachine
  split
  case h_1 => exact .refl
  case h_2 hm =>
    obtain ⟨files, _, he⟩ := bind_eq_ok.mp hm
    cases he
    exact .files files .refl

theorem host_onMap {place : MapRef} {command : MapCommand} {m : Map}
    (h : s.map? place = some m) :
    (s.onMap place command).2.host = (command.run.outcome m s.host).2.2 := by
  simp [onMap, h]

-- One case for each command.
theorem run_quiet {c : Command} (hc : c.Genuine) (ha : ¬c.Accesses) :
    s.host.Leads Quiet (s.run c).2.host := by
  cases c
  case newMap         => exact dropMap_leads ..
  case openMap        => exact openMap_leads (Map.ofPath_asks _)
  case adoptMap | fault | request => exact hc.plain.elim
  case onMap place command =>
    cases hm : s.map? place
    case none   => simp only [run, onMap, hm]; exact .refl
    case some m =>
      simp only [run, host_onMap hm]
      exact (MapCommand.run_quiet ha).outcome m s.host
  case newProgram     => exact dropProgram_leads ..
  case onProgram place command =>
    simp only [run, onProgram]
    split
    case h_1   => exact .refl
    case h_2 p _ => simpa using (ProgramCommand.run_asks command).outcome p s.host
  case newCollection  => exact dropCollection_leads ..
  case onCollection id command =>
    simp only [run, onCollection]
    split
    case h_1   => exact .refl
    case h_2 c _ => exact (CollectionCommand.run_asks command).outcome c s.host
  case snapshot       =>
    simp only [run]
    split
    case isTrue  => exact takeSnapshot_leads ..
    case isFalse => exact .refl
  case relocate | createdMaps | list => exact .refl
  case drop           => exact dropAll_leads ..
  case reportKind fd number => exact absurd rfl (hc.honest fd number)
  case makeDirectory | write | remove => exact onFiles_leads _

theorem run_leads {c : Command} (hc : c.Genuine) : s.host.Leads (fun _ => True) (s.run c).2.host := by
  by_cases ha : c.Accesses
  case neg => exact (run_quiet hc ha).mono fun _ _ => trivial
  case pos =>
    cases c
    case onMap place command =>
      cases hm : s.map? place
      case none   => simp only [run, onMap, hm]; exact .refl
      case some m => simp only [run, host_onMap hm]; exact command.run_leads m s.host
    all_goals exact ha.elim

end Session

end EbpfManager
