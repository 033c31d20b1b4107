import EbpfManager.Proofs.Entries.Lookups
import EbpfManager.Proofs.Entries.Shapes
import EbpfManager.Proofs.Introspection.Snapshots

namespace EbpfManager

open Request (Quiet)

-- What a map of a snapshot is: it says what the kernel says, and has a handle on the map of the kernel that was
-- not given out before.
structure ShownMap.Shows (u : ShownMap) (before after : Machine) (m : Map) : Prop where
  copies : m.Copies u.map
  handle : ∃ fd, m.handle = .live fd ∧ before.nextFd ≤ fd ∧ after.handles.get? fd = some (.map u.id)

structure Snapshot.Mirrors (i : Snapshot) (before after : Machine) (refs : List Nat) : Prop where
  -- One map for each that is referred to and of a known kind, under its key, and no other.
  maps : i.maps.HasEach ShownMap.key (fun u m => u.Shows before after m)
    (ShownMap.keyed [] (before.known refs.eraseDups))
  -- The handles on maps of other kinds are released: none is open but those that were, and those of the snapshot.
  held : after.held = i.held + before.held

namespace Session

variable {s s' : Session} {number : Nat} {refs : List Nat} {source : SnapshotSource} {h host : Host}
  {program : ProgramInfo}

-- That the kernel reports such names as it takes.
def PlainNames (s : Session) : Prop :=
  ∀ id map, s.host.machine.maps.get? id = some map → PlainName map.info.name

theorem PlainNames.known (hp : s.PlainNames) (ids : List Nat) :
    ∀ e ∈ s.host.machine.known ids, PlainName e.2.info.name :=
  fun _ he => hp _ _ (Machine.get?_of_mem_known he)

-- No two of the maps that are shown have one key.
theorem PlainNames.nodup_keys (hp : s.PlainNames) (refs : List Nat) :
    ((ShownMap.keyed [] (s.host.machine.known refs.eraseDups)).map ShownMap.key).Nodup :=
  ShownMap.nodup_keyed ((Machine.known_sublist ..).nodup (nodup_eraseDups refs)) (hp.known _)

-- That a snapshot is asked for of the program with a number.
def Names (s : Session) (number : Nat) : SnapshotSource → Prop
  | .program place => ∃ p fd, s.program? place = some p ∧ p.handle = .live fd ∧
      s.host.machine.handles.get? fd = some (.program number)
  | .fd fd => s.host.machine.handles.get? fd = some (.program number)
  | .id id => id = number

-- The program with a number gets a handle.
theorem ofId_succeeds {since : Fd} (o : h.Sane) (hs : since ≤ h.machine.nextFd) (u : h.machine.Uses number refs)
    (hp : ∀ e ∈ h.machine.known refs.eraseDups, PlainName e.2.info.name) :
    (Snapshot.ofId number).Succeeds h fun i h' =>
      Snapshot.Lists since h'.machine (ShownMap.keyed [] (h.machine.known refs.eraseDups)) i.maps := by
  obtain ⟨program, hg, _⟩ := u.program
  refine .bind (.perform o trivial (Machine.answer_programFdById hg)) fun reply h₁ l₁ hr => ?_
  obtain ⟨hreply, he⟩ := hr
  have k₁ := l₁.keeps o
  have ho : h₁.machine.handles.get? h.machine.nextFd = some (.program number) := he ▸ h.machine.get?_openHandle _
  have hk : h₁.machine.known refs.eraseDups = h.machine.known refs.eraseDups := by rw [he]; rfl
  refine .bind (.accept hreply) fun fd h₂ _ hfd => ?_
  obtain ⟨rfl, rfl⟩ := hfd
  rw [← hk] at hp ⊢
  exact .orElseClean (Snapshot.build_succeeds true (l₁.sane o) (hs.trans k₁.nextFd) ho (u.keeps k₁) hp)

theorem snapshotWork_succeeds (o : s.host.Sane) (u : s.host.machine.Uses number refs) (hn : s.Names number source)
    (hp : ∀ e ∈ s.host.machine.known refs.eraseDups, PlainName e.2.info.name) :
    ∃ work, s.snapshotWork source = some work ∧ work.Succeeds s.host fun i h' =>
      Snapshot.Lists s.host.machine.nextFd h'.machine (ShownMap.keyed [] (s.host.machine.known refs.eraseDups))
        i.maps := by
  cases source
  case fd fd => exact ⟨_, rfl, Snapshot.build_succeeds false o (le_refl _) hn u hp⟩
  case program place =>
    obtain ⟨p, fd, hs, hl, hg⟩ := hn
    have hw : Snapshot.ofProgram p = Snapshot.ofFd fd := by
      simp only [Snapshot.ofProgram, Program.liveFd, hl]
      rfl
    exact ⟨Snapshot.ofFd fd, by simp [snapshotWork, hs, hw], Snapshot.build_succeeds false o (le_refl _) hg u hp⟩
  case id id =>
    obtain rfl : id = number := hn
    exact ⟨_, rfl, ofId_succeeds o (le_refl _) u hp⟩

-- A snapshot that is taken, and what is known of it and of the host after it.
structure Takes (s : Session) (source : SnapshotSource) (refs : List Nat) (i : Snapshot) (host : Host) : Prop where
  outcome : ∃ work, s.snapshotWork source = some work ∧ work.outcome s.host = (.ok i, host)
  leads   : s.host.Leads Quiet host
  holds   : s.host.Holds host (i.held + s.host.machine.held)
  lists   : Snapshot.Lists s.host.machine.nextFd host.machine
    (ShownMap.keyed [] (s.host.machine.known refs.eraseDups)) i.maps

theorem exists_takes (o : s.host.Sane) (u : s.host.machine.Uses number refs) (hn : s.Names number source)
    (hp : s.PlainNames) : ∃ i host, s.Takes source refs i host := by
  obtain ⟨work, hw, hs⟩ := snapshotWork_succeeds o u hn (hp.known _)
  have hh := ends_iff_outcome.mp (hs.and (snapshotWork_holds hw (Host.holds_refl o.consistent o.faultless)))
  split at hh
  case h_1 i host he =>
    obtain ⟨⟨l, c⟩, _, hh⟩ := hh
    exact ⟨i, host, ⟨work, hw, he⟩, l, hh, c⟩
  case h_2 => exact hh.left.elim

-- The handle of a map of a snapshot is open, and so it is open on the map of the kernel.
theorem Takes.mirrors {i : Snapshot} (t : s.Takes source refs i host) (hp : s.PlainNames) :
    i.Mirrors s.host.machine host.machine refs := by
  refine ⟨Table.Collects.hasEach_of_nodup (t.lists.imp fun key u m hg b => ⟨b.copies, ?_⟩) (hp.nodup_keys refs),
    t.holds.becomes.held⟩
  obtain ⟨fd, hl, hs, ho⟩ := b.handle
  obtain ⟨others, hf, _⟩ := t.lists.sorted.total_focus Map.held hg
  have hm : (fd, HandleKind.map) ∈ i.held + s.host.machine.held := by
    simp [Snapshot.held, hf, Map.held, hl]
  obtain ⟨object, hg, _⟩ := t.holds.get? hm
  exact ⟨fd, hl, hs, ho.only hg ▸ hg⟩

-- What comes of it when a snapshot is asked for and kept: what it has of the maps that a program refers to, and
-- what is found through these later on.
structure Introspects (s : Session) (source : SnapshotSource) (key : String) (refs : List Nat) (i : Snapshot)
    (host : Host) : Prop where
  outcome : ∃ work, s.snapshotWork source = some work ∧ work.outcome s.host = (.ok i, host)
  kept    : s.run (.snapshot none source (some key)) = (.done (.snapshot i), { s with host }.putSnapshot key i)
  mirrors : i.Mirrors s.host.machine host.machine refs
  -- As long as a map of the snapshot has the handle that it was given, look-ups through it come to the same as
  -- through any other map that is open on the map of the kernel.
  alike {s' : Session} {u : ShownMap} {m m' m'' : Map} {place : MapRef} {c : MapCommand} :
    ({ s with host }.putSnapshot key i).Later s' → u ∈ ShownMap.keyed [] (s.host.machine.known refs.eraseDups) →
    i.maps.get? u.key = some m → s'.map? (.ofSnapshot key u.key) = some m' → m'.handle = m.handle →
    s'.Opens place m'' u.id → c.Looks →
    Outcome.Alike (s'.run (.onMap (.ofSnapshot key u.key) c)).1 (s'.run (.onMap place c)).1

theorem Takes.run {i : Snapshot} (t : s.Takes source refs i host) (key : String) :
    s.run (.snapshot none source (some key)) = (.done (.snapshot i), { s with host }.putSnapshot key i) := by
  obtain ⟨work, hw, he⟩ := t.outcome
  simp [Session.run, takeSnapshot, hw, he]

-- A handle that is open on one map of the kernel only is open on this map if a map of the session has it.
theorem Sane.opens {m : Map} {place : MapRef} {fd : Fd} {id : Nat} (o : s.Sane) (hm : s.map? place = some m)
    (hs : m.Sized) (hl : m.handle = .live fd) (b : s.host.machine.OnlyOn fd (.map id)) : s.Opens place m id := by
  have hh : (fd, HandleKind.map) ∈ m.held := by simp [Map.held, hl]
  obtain ⟨object, hg, _⟩ := (o.settled.map hm).get? hh
  exact ⟨hm, hs, isOpenOn_iff.mpr ⟨fd, hl, b.only hg ▸ hg⟩⟩

theorem Takes.introspects {i : Snapshot} (t : s.Takes source refs i host) (a : s.Attained) (hp : s.PlainNames)
    (key : String) : s.Introspects source key refs i host := by
  refine ⟨t.outcome, t.run key, t.mirrors hp, fun {s' u m m' _ _ _} st hu hm hm' he o hc => ?_⟩
  have n : s.Next ({ s with host }.putSnapshot key i) :=
    ⟨.snapshot none source (some key), ⟨trivial, nofun⟩, congrArg Prod.snd (t.run key)⟩
  obtain ⟨o', r⟩ := (a.sane.next n).later st
  -- From when the map was opened, its handle was open on nothing else.
  obtain ⟨m₀, hm₀, b⟩ := t.lists.get? (hp.nodup_keys refs) hu
  cases hm.symm.trans hm₀
  obtain ⟨fd, hl, _, hb⟩ := b.handle
  have hb := (hb.keeps ((dropSnapshot_leads { s with host } key).keeps (t.leads.sane a.sane.told.sane))).keeps r.keeps
  exact (o'.opens hm' (o'.told.place hm').declared (he.trans hl) hb).alike o o'.told hc

-- Whatever the state of the kernel: every program has been loaded at some time, and a snapshot of it is of the
-- maps that its loads referred to then.
theorem exists_introspects (a : s.Attained) (hn : s.PlainNames)
    (hp : s.host.machine.programs.get? number = some program) :
    (∃ refs, s.Loaded number refs) ∧ ∀ refs, s.Loaded number refs →
    ∀ source, s.Names number source → ∀ key,
      ∃ i host, s.Introspects source key refs i host := by
  refine ⟨a.loaded (by simp [hp]), fun refs ld source hs key => ?_⟩
  obtain ⟨i, host, t⟩ := exists_takes a.sane.told.sane ld.uses hs hn
  exact ⟨i, host, t.introspects a hn key⟩

-- Two maps whose names are cut to the same, a third of a kind that is not known, and a program that loads all of
-- them.
def sharing : Session :=
  let loads : Bytes := [0x18, 0x11, 0, 0, 3, 0, 0, 0, 0, 0, 0, 0, 0, 0, 0, 0, 0x18, 0x11, 0, 0, 4, 0, 0, 0, 0, 0, 0, 0,
    0, 0, 0, 0, 0x18, 0x11, 0, 0, 5, 0, 0, 0, 0, 0, 0, 0, 0, 0, 0, 0, 0x95, 0, 0, 0, 0, 0, 0, 0]
  let matching : Program := { name := "match", kind := .xdp, license := "GPL", code := loads, kernelVersion := 0 }
  [.newMap "in" ⟨"match_maps_ingress", .hash, 4, 8, 16, 0, none, none, 1, .unset⟩, .onMap (.own "in") .create,
    .newMap "on" ⟨"match_maps_inground", .hash, 4, 4, 8, 0, none, none, 1, .unset⟩, .onMap (.own "on") .create,
    .newMap "ring" ⟨"events", .hash, 4, 4, 8, 0, none, none, 1, .unset⟩, .onMap (.own "ring") .create,
    .reportKind 5 27, .newProgram "match" matching, .onProgram (.own "match") .load].foldl (fun s c => (s.run c).2)
      (fresh .empty)

theorem sharing_attained : sharing.Attained :=
  .run ⟨trivial, nofun⟩ <| .run ⟨⟨rfl, rfl⟩, nofun⟩ <| .run rfl <| .run ⟨trivial, nofun⟩ <|
    .run ⟨rfl, nofun⟩ <|
    .run ⟨trivial, nofun⟩ <| .run ⟨rfl, nofun⟩ <| .run ⟨trivial, nofun⟩ <| .run ⟨rfl, nofun⟩ <|
    ⟨.empty, .refl⟩

theorem exists_introspects_sharing : ∃ refs i host, refs.eraseDups = [1, 2, 3] ∧ sharing.Loaded 4 refs ∧
    sharing.Introspects (.id 4) "seen" refs i host ∧ i.maps.keys = ["match_maps_ingr", "match_maps_ingr#2"] := by
  have hn : sharing.PlainNames := by
    have hn : ∀ map ∈ sharing.host.machine.maps.values, PlainName map.info.name := by decide +kernel
    exact fun id map hm => hn map (Table.mem_values_of_get? hm)
  have hp : (sharing.host.machine.programs.get? 4).map (·.mapIds) = some [1, 2, 3] := by decide +kernel
  obtain ⟨program, hp, hids⟩ := Option.map_eq_some_iff.mp hp
  obtain ⟨⟨refs, ld⟩, h⟩ := exists_introspects sharing_attained hn hp
  obtain ⟨i, host, hi⟩ := h refs ld (.id 4) rfl "seen"
  refine ⟨refs, i, host, ?_, ld, hi, ?_⟩
  case refine_1 =>
    obtain ⟨program', hp', he⟩ := ld.uses.program
    cases hp.symm.trans hp'
    exact he.symm.trans hids
  case refine_2 =>
    obtain ⟨work, hw, he⟩ := hi.outcome
    cases hw
    have hk : ((Snapshot.ofId 4).outcome sharing.host).1.toOption.map (·.maps.keys) =
        some ["match_maps_ingr", "match_maps_ingr#2"] := by decide +kernel
    rw [he] at hk
    exact Option.some_inj.mp hk

end Session

end EbpfManager
