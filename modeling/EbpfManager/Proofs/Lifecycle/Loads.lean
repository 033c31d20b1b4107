import EbpfManager.Proofs.Handles.Collections
import EbpfManager.Proofs.Kernel.Verdicts
import EbpfManager.Proofs.Lifecycle.Programs
import EbpfManager.Proofs.Objects.WellFormed

namespace EbpfManager

open Attempt (perform)

variable {h base : Host} {p : Program} {a : ProgramAttributes} {log : Option LogBuffer} {number : Errno}
  {message : String} {ids : List Nat}

theorem ends_programLoad_of_error {fail : Error → Host → Prop} (hf : h.faults = [])
    (hv : h.machine.verdict a.code = .error (number, message)) : Ends (perform (.programLoad a log)) h
      (fun reply h' => reply = (Machine.fails number, Machine.logged message log) ∧ h'.machine = h.machine ∧
        h'.faults = []) fail := by
  have ha : h.machine.answer (.programLoad a log) = _ := Machine.programLoad_of_error hv
  rw [ends_perform, Host.perform_of_faults_eq_nil _ hf, ha]
  exact ⟨rfl, rfl, hf⟩

theorem ends_programLoad_of_ok {fail : Error → Host → Prop} (hf : h.faults = [])
    (hv : h.machine.verdict a.code = .ok ids) : Ends (perform (.programLoad a log)) h
      (fun reply h' => reply = (.ok h.machine.nextFd, log) ∧ h'.faults = [] ∧ ∃ program,
        h'.machine = h.machine.withProgram program) fail := by
  obtain ⟨program, hl⟩ := Machine.programLoad_of_ok log hv
  have ha : h.machine.answer (.programLoad a log) = _ := hl
  rw [ends_perform, Host.perform_of_faults_eq_nil _ hf, ha]
  exact ⟨rfl, hf, program, rfl⟩

namespace Program

theorem attachment_of_unloaded (ha : p.Attachable) (hs : p.state = .unloaded) : p.attachment = none := by
  by_contra hn
  obtain ⟨fd, hl⟩ := ha (Option.isSome_iff_ne_none.mpr hn)
  cases (state_eq_unloaded_iff.mp hs).symm.trans hl

-- A program that does not wait to be loaded is refused without a call.
theorem exists_load_eq_error (hs : p.state ≠ .unloaded) : ∃ e, ∀ h, load.outcome p h = (.error e, p, h) := by
  cases hp : p.state
  case unloaded => exact absurd hp hs
  case closed =>
    exact ⟨.alreadyClosed p.name, fun h => Ends.editOutcome_eq_error (by simp [load, hp])⟩
  case loaded | attached =>
    exact ⟨.alreadyLoaded p.name, fun h => Ends.editOutcome_eq_error (by simp [load, hp])⟩

-- What is said about a program that is refused.
def refusal (p : Program) (number : Errno) (message : String) : Error :=
  .verifierRejected p.name
    (if p.logSize = 0 then "" else logText (Machine.logged message (some (.zeroed p.logSize)))) (.errno number)

-- What is refused is refused again when it is asked for with a log.
theorem submit_refused (hf : h.faults = []) (hv : h.machine.verdict p.code = .error (number, message)) :
    Ends p.submit h (fun _ _ => False) fun e h' => e = p.refusal number message ∧ h'.machine = h.machine ∧
      h'.faults = [] := by
  have hr : ByVerifier (.errno number) :=
    (Machine.number_of_verdict hv).imp (congrArg some) (congrArg some)
  refine ends_bind.mpr ((ends_programLoad_of_error (a := p.attributes) hf hv).imp_ok ?_)
  rintro _ h₁ ⟨rfl, hm₁, hf₁⟩
  simp only [Machine.fails, ends_ite, ends_throw]
  refine ⟨fun hn => absurd hr hn, fun _ => ⟨fun hl => ⟨by rw [refusal, if_pos hl], hm₁, hf₁⟩,
    fun hl => ?_⟩⟩
  refine ends_bind.mpr ((ends_programLoad_of_error (a := p.attributes) hf₁ (hm₁ ▸ hv)).imp_ok ?_)
  rintro _ h₂ ⟨rfl, hm₂, hf₂⟩
  simp only [Machine.fails, ends_accept]
  exact ⟨by rw [refusal, if_neg hl], hm₂.trans hm₁, hf₂⟩

theorem submit_done (hf : h.faults = []) (hv : h.machine.verdict p.code = .ok ids) :
    Ends p.submit h (fun fd h' => fd = h.machine.nextFd ∧ h'.faults = [] ∧ ∃ program,
      h'.machine = h.machine.withProgram program)
      fun _ _ => False := by
  refine ends_bind.mpr ((ends_programLoad_of_ok (a := p.attributes) hf hv).imp_ok ?_)
  rintro _ h' ⟨rfl, hd⟩
  exact ⟨rfl, hd⟩

theorem load_refused (hs : p.state = .unloaded) (hf : h.faults = [])
    (hv : h.machine.verdict p.code = .error (number, message)) : Ends load (p, h) (fun _ _ => False) fun e s =>
      e = p.refusal number message ∧ s.1 = p ∧ s.2.machine = h.machine ∧ s.2.faults = [] := by
  simp only [load, ends_bind, ends_object, hs, ends_lift]
  exact (submit_refused hf hv).imp (fun _ _ => False.elim) fun _ _ hd => ⟨hd.left, trivial, hd.right⟩

theorem load_done (hs : p.state = .unloaded) (hf : h.faults = []) (hv : h.machine.verdict p.code = .ok ids) :
    Ends load (p, h) (fun _ s => s.1 = { p with handle := .live h.machine.nextFd } ∧ s.2.faults = [] ∧ ∃ program,
      s.2.machine = h.machine.withProgram program)
      fun _ _ => False := by
  simp only [load, ends_bind, ends_object, hs, ends_lift]
  refine (submit_done hf hv).imp_ok ?_
  rintro _ h' ⟨rfl, hd⟩
  exact ⟨rfl, hd⟩

-- What becomes of a program on a host is what becomes of it on another one whose handles are open on the same maps.
theorem load_alike (hb : base.faults = []) (hf : h.faults = []) (hm : base.machine.AgreesOnMaps h.machine) :
    (∃ e h₀ h', load.outcome p base = (.error e, p, h₀) ∧ load.outcome p h = (.error e, p, h') ∧
      h'.machine = h.machine ∧ h'.faults = []) ∨
    p.state = .unloaded ∧ ∃ fd h₀ h', load.outcome p base = (.ok (), { p with handle := .live fd }, h₀) ∧
      load.outcome p h = (.ok (), { p with handle := .live h.machine.nextFd }, h') ∧ h'.faults = [] ∧ ∃ program,
        h'.machine = h.machine.withProgram program := by
  by_cases hs : p.state = .unloaded
  case neg =>
    obtain ⟨e, he⟩ := exists_load_eq_error hs
    exact .inl ⟨e, base, h, he base, he h, rfl, hf⟩
  case pos =>
    cases hv : base.machine.verdict p.code
    case error said =>
      obtain ⟨_, ⟨_, h₀⟩, he₀, rfl, rfl, _⟩ := (load_refused hs hb hv).exists_editOutcome_error
      obtain ⟨_, ⟨_, h'⟩, he, rfl, rfl, hm', hf'⟩ :=
        (load_refused hs hf (hm.verdict_eq ▸ hv)).exists_editOutcome_error
      exact .inl ⟨_, h₀, h', he₀, he, hm', hf'⟩
    case ok ids =>
      obtain ⟨_, ⟨_, h₀⟩, he₀, rfl, _⟩ := (load_done hs hb hv).exists_editOutcome_ok
      obtain ⟨_, ⟨_, h'⟩, he, rfl, hd⟩ := (load_done hs hf (hm.verdict_eq ▸ hv)).exists_editOutcome_ok
      exact .inr ⟨hs, _, h₀, h', he₀, he, hd⟩

end Program

namespace Collection

variable {c : Collection} {ps ps' : List (String × Program)} {fds : List Fd}

-- The programs of a collection are in order.
structure Ordered (c : Collection) : Prop where
  sorted     : c.programs.Sorted
  attachable : ∀ p ∈ c.programs.values, p.Attachable

theorem load_ordered {data : Bytes} : Maintains (fun s => s.1.Ordered) (load data) := by
  rintro ⟨c, h⟩ o
  refine ends_load (fun _ => o) (fun _ _ _ => o) fun object hl _ => ?_
  have hm : Ends (Assembly.addMaps c.options object.maps) ({}, h) (fun _ _ => True) fun _ _ => True :=
    .of_forall (fun _ _ => trivial) fun _ _ => trivial
  have hb : Ends (Assembly.build c.options object) ({}, h) (fun programs _ => programs.Sorted ∧
      ∀ p ∈ programs.values, p.handle = .unset ∧ p.attachment = none) fun _ _ => True :=
    Assembly.ends_build hm (fun _ _ _ => Assembly.programs_unset) fun _ _ _ _ => trivial
  refine hb.imp (fun programs _ ⟨hs, hu⟩ _ => ⟨hs, fun p hp => ?_⟩) fun _ _ _ => o
  exact Program.attachable_of_detached (hu p hp).right

theorem loadFile_ordered {path : Path} : Maintains (fun s => s.1.Ordered) (loadFile path) := by
  rintro ⟨c, h⟩ o
  simp only [loadFile, ends_bind, ends_lift, ends_get, ends_accept, ends_note]
  split
  case h_1 => exact load_ordered _ o
  case h_2 => exact o

theorem loadPrograms_ordered : Maintains (fun s => s.1.Ordered) loadPrograms := by
  rintro ⟨c, h⟩ o
  have hf := loadEach_follows c.programs.entries h
  refine ⟨o.sorted.of_keys (Table.keys_of_forall₂ hf), fun p hp => ?_⟩
  obtain ⟨p', hp', f⟩ := Table.exists_of_forall₂ hf hp
  exact f.attachable (o.attachable p' hp')

-- The collections there can be, whatever the kernels have been like on which anything was asked of them.
inductive Used : Collection → Prop
  | new (options : Options) : Used { options }
  | call {c : Collection} (command : CollectionCommand) (h : Host) : Used c → Used (command.run.outcome c h).2.1
  | map {c : Collection} {name : String} {m : Map} (command : MapCommand) (h : Host) : Used c →
      c.maps.get? name = some m → Used { c with maps := c.maps.insert name (command.run.outcome m h).2.1 }
  | program {c : Collection} {name : String} {p : Program} (command : ProgramCommand) (h : Host) : Used c →
      c.programs.get? name = some p → Used { c with programs := c.programs.insert name (command.run.outcome p h).2.1 }

theorem Used.ordered (u : c.Used) : c.Ordered := by
  induction u
  case new => exact ⟨Table.sorted_empty, fun _ hp => by cases hp⟩
  case call c command h _ ih =>
    have w : Maintains (fun s => s.1.Ordered) command.run := by
      cases command
      case load         => exact load_ordered.bind fun _ _ => id
      case loadFile     => exact loadFile_ordered.bind fun _ _ => id
      case loadPrograms => exact loadPrograms_ordered.bind fun _ _ => id
      case state | find => exact fun _ => id
    exact (w (c, h) ih).of_editOutcome
  case map ih => exact ⟨ih.sorted, ih.attachable⟩
  case program p command h _ hg ih =>
    have ha := ih.attachable _ (Table.mem_values_of_get? hg)
    have ha' := (ProgramCommand.run_attachable (c := command) (p, h) ha).of_editOutcome
    exact ⟨ih.sorted.insert .., ih.sorted.forall_insert _ ih.attachable ha'⟩

-- That programs have become of others what becomes of each of these alone on a host. Those that are loaded have new
-- handles.
inductive LoadsEach (base : Host) : List (String × Program) → List (String × Program) → List Fd → Prop
  | nil : LoadsEach base [] [] []
  | refused {name : String} {p : Program} {e : Error} {h₀ : Host} {ps ps' : List (String × Program)}
      {fds : List Fd} :
      Program.load.outcome p base = (.error e, p, h₀) →
      LoadsEach base ps ps' fds → LoadsEach base ((name, p) :: ps) ((name, p) :: ps') fds
  | loaded {name : String} {p p₀ : Program} {fd : Fd} {h₀ : Host} {ps ps' : List (String × Program)}
      {fds : List Fd} :
      p.state = .unloaded → Program.load.outcome p base = (.ok (), p₀, h₀) → p₀.state = .loaded →
      { p with handle := .live fd }.state = .loaded → LoadsEach base ps ps' fds →
      LoadsEach base ((name, p) :: ps) ((name, { p with handle := .live fd }) :: ps') (fd :: fds)

theorem LoadsEach.states (l : LoadsEach base ps ps' fds) : (ps'.map fun (name, p) => (name, p.state)) =
    ps.map fun (name, p) => (name, (Program.load.outcome p base).2.1.state) := by
  induction l
  case nil => rfl
  case refused he _ ih        => simp only [List.map_cons, ih, he]
  case loaded he hs₀ hs' _ ih => simp only [List.map_cons, ih, he, hs₀, hs']

-- By induction on the programs. New programs are no maps, so that the handles in code that is yet to come are open on
-- the same maps as before.
theorem loadEach_alone (hb : base.faults = []) (hf : h.faults = []) (hc : h.machine.Consistent)
    (hm : base.machine.AgreesOnMaps h.machine) (ha : ∀ e ∈ ps, e.2.Attachable) :
    ∃ ps' h' fds, loadEach ps h = (ps.map fun (name, p) => (name, (Program.load.outcome p base).1), ps', h') ∧
      LoadsEach base ps ps' fds ∧ h.machine.Adds h'.machine fds := by
  induction ps generalizing h
  case nil => exact ⟨[], h, [], rfl, .nil, .refl h.machine⟩
  case cons e ps ih =>
    obtain ⟨name, p⟩ := e
    have hap : p.Attachable := ha _ List.mem_cons_self
    have ih {h} (hf : h.faults = []) (hc) (hm) := ih (h := h) hf hc hm fun e he => ha e (List.mem_cons_of_mem _ he)
    obtain ⟨e, h₀, h₁, he₀, he₁, hm₁, hf₁⟩ |
      ⟨hs, fd₀, h₀, h₁, he₀, he₁, hf₁, program, hm₁⟩ :=
      Program.load_alike (p := p) hb hf hm
    case inl =>
      obtain ⟨ps', h', fds, hl, hle, hadds⟩ := ih hf₁ (hm₁ ▸ hc) (hm₁ ▸ hm)
      refine ⟨(name, p) :: ps', h', fds, ?_, .refused he₀ hle, hm₁ ▸ hadds⟩
      simp only [loadEach, he₁, hl, List.map_cons, he₀]
    case inr =>
      have hadd : h.machine.Adds h₁.machine [h.machine.nextFd] := hm₁ ▸ hc.adds program
      have hc₁ : h₁.machine.Consistent := hm₁ ▸ hc.withProgram program
      obtain ⟨ps', h', fds, hl, hle, hadds⟩ := ih hf₁ hc₁ (hm.trans hadd.agreesOnMaps)
      have hn := Program.attachment_of_unloaded hap hs
      have loaded (fd : Fd) : { p with handle := .live fd }.state = .loaded :=
        Program.state_eq_loaded_iff.mpr ⟨⟨fd, rfl⟩, hn⟩
      refine ⟨_, h', _, ?_, .loaded hs he₀ (loaded fd₀) (loaded h.machine.nextFd) hle, hadd.trans hadds⟩
      simp only [loadEach, he₁, hl, List.map_cons, he₀]

-- Each program is loaded or refused as if it were the only one. The ones that are refused stay as they are, and the
-- others get a handle each that is new, on a program that is new. Nothing else changes.
theorem loadPrograms_independent (u : c.Used) (hr : h.machine.Reachable) (hf : h.faults = []) :
    ∃ programs h' fds, loadPrograms.outcome c h =
        (.ok (c.programs.entries.map fun (name, p) => (name, (Program.load.outcome p h).1)),
          { c with programs }, h') ∧
      c.programs.keys.Pairwise (· < ·) ∧
      (programs.entries.map fun (name, p) => (name, p.state)) =
        (c.programs.entries.map fun (name, p) => (name, (Program.load.outcome p h).2.1.state)) ∧
      LoadsEach h c.programs.entries programs.entries fds ∧ h.machine.Adds h'.machine fds := by
  have o := u.ordered
  obtain ⟨ps', h', fds, hl, hle, hadds⟩ := loadEach_alone hf hf hr.consistent (fun _ _ => .rfl)
    fun e he => o.attachable e.2 (List.mem_map_of_mem he)
  refine ⟨⟨ps'⟩, h', fds, ?_, o.sorted, hle.states, hle, hadds⟩
  simp only [Edit.outcome, loadPrograms, hl]

-- The two programs of `gate` that wait to be loaded, and a kernel that has only the map of the first one.
def waiting : Collection :=
  ((CollectionCommand.load Object.Description.gate.draft.write).run.outcome
    { options := { pinRoot := ⟨"."⟩ } } {}).2.1

def entered : Host :=
  { machine := (Machine.answer {} (.mapCreate ⟨"entered", ⟨.hash, 4, 8, 16, 0⟩, none⟩)).2 }

theorem results_waiting : (waiting.programs.entries.map fun (name, p) => (name, (Program.load.outcome p entered).1)) =
    [("enter", .ok ()), ("leave", .error (.verifierRejected "leave" "0: fd 4 is not pointing to valid bpf_map"
      (.errno Errno.accessDenied)))] := by
  simp only [waiting, Edit.outcome, CollectionCommand.run, bind, EStateM.bind, load, ObjectFile.parse_gate]
  decide +kernel

-- The handle of the first program has the number that the second one has in its code, but this is of no use to it.
theorem loadPrograms_independent_of_gate : waiting.Used ∧ ∃ programs h' fds, loadPrograms.outcome waiting entered =
      (.ok [("enter", .ok ()), ("leave", .error (.verifierRejected "leave"
          "0: fd 4 is not pointing to valid bpf_map" (.errno Errno.accessDenied)))],
        { waiting with programs }, h') ∧
    LoadsEach entered waiting.programs.entries programs.entries fds ∧ entered.machine.Adds h'.machine fds := by
  have u : waiting.Used := .call _ _ (.new _)
  obtain ⟨programs, h', fds, ho, _, _, hl⟩ := loadPrograms_independent (h := entered) u
    (.request _ (.start .empty)) rfl
  exact ⟨u, programs, h', fds, results_waiting ▸ ho, hl⟩

end Collection

end EbpfManager
