import EbpfManager.Proofs.Handles.Closing

namespace EbpfManager.Session

variable {s : Session}

structure OneOwnerEach (s : Session) : Prop where
  -- The open handles, with what they are open on, are those of the objects; no two objects share one.
  handles : s.host.machine.held = s.held
  distinct : (s.held.map Prod.fst).Nodup
  -- What a handle is open on is there.
  leads {fd object} : s.host.machine.handles.get? fd = some object → s.host.machine.Has object
  attached {place program} : s.program? place = some program →
    (program.attachment.isSome ↔ program.state = .attached)
  -- Every close has succeeded, and no handle was used or closed after it.
  calls : Orderly s.host.calls s.host.machine
  dropped : s.maps.entries = [] → s.programs.entries = [] → s.collections.entries = [] →
    s.snapshots.entries = [] → s.host.machine.openHandles = 0
  -- What is closed is still closed after the next command, unless it is not there any more or has
  -- been replaced.
  map_closed {c place map map'} : Command.Plain c → (s.without c).map? place = some map →
    map.handle = .closed → (s.run c).2.map? place = some map' → map'.handle = .closed
  program_closed {c place program program'} : Command.Plain c →
    (s.without c).program? place = some program → program.handle = .closed →
    (s.run c).2.program? place = some program' → program'.handle = .closed

theorem Follows.map {s' : Session} {place : MapRef} {map map' : Map} (f : s.Follows s')
    (h : s.map? place = some map) (h' : s'.map? place = some map') : map.Follows map' := by
  cases place
  case own id => exact f.maps h h'
  case ofCollection id name =>
    obtain ⟨_, hc, hm⟩ := Option.bind_eq_some_iff.mp h
    obtain ⟨_, hc', hm'⟩ := Option.bind_eq_some_iff.mp h'
    exact (f.collections hc hc').left hm hm'
  case ofSnapshot id key =>
    obtain ⟨_, hi, hm⟩ := Option.bind_eq_some_iff.mp h
    obtain ⟨_, hi', hm'⟩ := Option.bind_eq_some_iff.mp h'
    exact f.snapshots hi hi' hm hm'

theorem Follows.program {s' : Session} {place : ProgramRef} {program program' : Program}
    (f : s.Follows s') (h : s.program? place = some program) (h' : s'.program? place = some program') :
    program.Follows program' := by
  cases place
  case own id => exact f.programs h h'
  case ofCollection id name =>
    obtain ⟨_, hc, hp⟩ := Option.bind_eq_some_iff.mp h
    obtain ⟨_, hc', hp'⟩ := Option.bind_eq_some_iff.mp h'
    exact (f.collections hc hc').right hp hp'

theorem attachment_isSome_iff {place : ProgramRef} {program : Program} (o : s.Sound)
    (h : s.program? place = some program) :
    program.attachment.isSome ↔ program.state = .attached := by
  have ha := attachable_of_program? o h
  constructor
  case mp =>
    intro hs
    obtain ⟨fd, hp⟩ := ha hs
    simp [Program.state, hp, hs]
  case mpr =>
    intro hs
    simp only [Program.state] at hs
    split at hs <;> simp_all [Option.isSome_iff_ne_none]

-- Whatever is asked of a session that starts on an empty kernel, whether it succeeds or fails and in any order: the
-- open handles are at all times those of the objects of the session.
theorem one_owner_each (r : s.Reachable) : s.OneOwnerEach := by
  obtain ⟨h₀, hc₀, o, hh⟩ := r.owned
  have hheld : s.host.machine.held = s.held := by simpa using hh.becomes.held
  obtain ⟨calls, hcalls, ho⟩ := hh.calls
  exact {
    handles  := hheld
    distinct := hheld ▸ Machine.held_nodup hh.consistent
    leads    := hh.consistent.handle
    attached := attachment_isSome_iff o
    calls    := by rwa [hcalls, hc₀]
    dropped hm hp hc hi := by
      have h0 : s.host.machine.held = 0 := by
        simp [hheld, held, Table.total_eq_sum, hm, hp, hc, hi]
      simpa [Machine.held, Machine.openHandles, Table.size] using h0
    map_closed hp h hc h'     := (run_follows hp ⟨o, hh⟩).map h h' hc
    program_closed hp h hc h' := ((run_follows hp ⟨o, hh⟩).program h h').closed hc }

-- A map that was created, and a program that was loaded and attached.
theorem one_owner_each_of_attached :
    let counts : Map := ⟨"counts", .hash, 4, 8, 16, 0, none, none, 1, .unset⟩
    let pass : Program :=
      { name := "pass", kind := .xdp, license := "GPL", code := [0x95, 0, 0, 0, 0, 0, 0, 0], kernelVersion := 0 }
    let s := [.newMap "counts" counts, .onMap (.own "counts") .create, .newProgram "pass" pass,
      .onProgram (.own "pass") .load, .onProgram (.own "pass") (.attach "lo" none)].foldl
        (fun s c => (s.run c).2) ({} : Session)
    s.host.machine.openHandles = 3 ∧ s.OneOwnerEach := by
  intro counts pass s
  refine ⟨by decide +kernel, one_owner_each ?_⟩
  exact .run _ trivial <| .run _ trivial <| .run _ ⟨rfl, rfl⟩ <| .run _ trivial <| .run _ rfl <|
    .start .empty

end EbpfManager.Session
