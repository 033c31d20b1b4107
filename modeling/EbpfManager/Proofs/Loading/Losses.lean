import EbpfManager.Proofs.Loading.Links

namespace EbpfManager.Collection

variable {c : Collection} {data : Bytes} {h : Host} {o : ObjectFile} {s : Collection × Host}

-- A map that was made of a definition and is open on a map of the kernel.
structure OpenFor (options : Options) (machine : Machine) (d : MapDefinition) (m : Map) : Prop where
  opened : (Assembly.declare options d).Opened m
  leads  : ∃ fd id, m.handle = .live fd ∧ machine.handles.get? fd = some (.map id)

structure Filled (c : Collection) (o : ObjectFile) (s : Collection × Host) : Prop where
  -- What goes by a name was made of the last definition of the name.
  maps     : s.1.maps.Collects MapDefinition.name (OpenFor c.options s.2.machine) o.maps
  programs : s.1.programs.Collects ProgramDefinition.name (Assembly.Linked s.1.maps) o.programs
  -- No two maps are open on the same handle.
  apart {name name' m m' fd} : s.1.maps.get? name = some m → s.1.maps.get? name' = some m' →
    m.handle = .live fd → m'.handle = .live fd → name = name'
  -- Each definition has an object of its own, just if the names are different.
  eachMap : s.1.maps.HasEach MapDefinition.name (OpenFor c.options s.2.machine) o.maps ↔
    (o.maps.map MapDefinition.name).Nodup
  eachProgram : s.1.programs.HasEach ProgramDefinition.name (Assembly.Linked s.1.maps) o.programs ↔
    (o.programs.map ProgramDefinition.name).Nodup
  -- Otherwise the collection has fewer objects than there are definitions.
  mapCount : s.1.maps.size = o.maps.length ↔ (o.maps.map MapDefinition.name).Nodup
  programCount : s.1.programs.size = o.programs.length ↔ (o.programs.map ProgramDefinition.name).Nodup

-- A collection that was filled has a map and a program for each definition just if no name is used twice. Of
-- several definitions of one name the last has its object in the collection; the others have none.
theorem load_filled (hf : h.faults = []) (hr : h.machine.Reachable)
    (hl : Edit.outcome (load data) c h = (.ok (), s)) : ∃ o, ObjectFile.parse data = .ok o ∧ Filled c o s := by
  have hc := ends_iff_editOutcome.mp <| load_covers c data h
  rw [hl] at hc
  obtain ⟨o, ho, hmaps, hprograms⟩ := hc
  have maps : s.1.maps.Collects MapDefinition.name (OpenFor c.options s.2.machine) o.maps := by
    refine hmaps.imp fun name d m hg hm => ⟨hm, ?_⟩
    obtain ⟨fd, cpus, he⟩ := hm
    have hlive : m.handle = .live fd := by rw [he]
    obtain ⟨id, hid⟩ := load_open hl hf hr hg hlive
    exact ⟨fd, id, hlive, hid⟩
  have programs := Assembly.programs_collects hprograms
  exact ⟨o, ho, {
    maps, programs
    apart        := (made_of_load hl hf hr).apart
    eachMap      := maps.hasEach_iff
    eachProgram  := programs.hasEach_iff
    mapCount     := maps.size_eq_iff
    programCount := programs.size_eq_iff }⟩

-- An object with two maps of the same name, and with two programs that have no names of their own. Their
-- sections differ in a character that names do not keep.
def clash : Object.Description where
  maps := [
    { name := "m", kindNumber := 1, keySize := 4, valueSize := 4, maxEntries := 8 },
    { name := "m", kindNumber := 2, keySize := 4, valueSize := 8, maxEntries := 2 }]
  programs := [
    { name := none, sectionName := "xdp/a", code := [0xb7, 0, 0, 0, 1, 0, 0, 0, 0x95, 0, 0, 0, 0, 0, 0, 0] },
    { name := none, sectionName := "xdp_a", code := [0xb7, 0, 0, 0, 2, 0, 0, 0, 0x95, 0, 0, 0, 0, 0, 0, 0] }]

open Object in
theorem parse_clash : ObjectFile.parse clash.draft.write = .ok {
    license := "GPL"
    kernelVersion := none
    maps := [⟨"m", ⟨.hash, 4, 4, 8, 0⟩, none, none⟩, ⟨"m", ⟨.array, 4, 8, 2, 0⟩, none, none⟩]
    programs := [
      ⟨"xdp_a", .xdp, "xdp/a", "GPL", [0xb7, 0, 0, 0, 1, 0, 0, 0, 0x95, 0, 0, 0, 0, 0, 0, 0], []⟩,
      ⟨"xdp_a", .xdp, "xdp_a", "GPL", [0xb7, 0, 0, 0, 2, 0, 0, 0, 0x95, 0, 0, 0, 0, 0, 0, 0], []⟩] } := by
  simp only [ObjectFile.parse, ofImage, Object.maps, readMaps, programsIn, ProgramSection.programs,
    ProgramSection.programRanges, ProgramSection.loadsAt, ranges, marks, mergeSort_key_eq_insertionSort]
  decide +kernel

-- The object is taken, with one map and one program.
theorem load_clash : ∃ s, Edit.outcome (load clash.draft.write) {} {} = (.ok (), s) ∧
    s.1.maps.size = 1 ∧ s.1.programs.size = 1 := by
  have he : (Edit.outcome (load clash.draft.write) {} {}).1 = .ok () := by
    simp only [Edit.outcome, load, parse_clash]
    decide +kernel
  refine ⟨(Edit.outcome (load clash.draft.write) {} {}).2, by rw [← he], ?_⟩
  simp only [Edit.outcome, load, parse_clash]
  decide +kernel

theorem load_filled_of_clash : ∃ s, Edit.outcome (load clash.draft.write) {} {} = (.ok (), s) ∧
    ∃ o, ObjectFile.parse clash.draft.write = .ok o ∧ Filled {} o s := by
  obtain ⟨s, hl, _⟩ := load_clash
  exact ⟨s, hl, load_filled rfl (.start .empty) hl⟩

theorem clash_loses : ∃ o s, ObjectFile.parse clash.draft.write = .ok o ∧
    Edit.outcome (load clash.draft.write) {} {} = (.ok (), s) ∧
    o.maps.length = 2 ∧ s.1.maps.size = 1 ∧ o.programs.length = 2 ∧ s.1.programs.size = 1 ∧
    ¬s.1.maps.HasEach MapDefinition.name (OpenFor {} s.2.machine) o.maps ∧
    ¬s.1.programs.HasEach ProgramDefinition.name (Assembly.Linked s.1.maps) o.programs := by
  obtain ⟨s, hl, hm, hp⟩ := load_clash
  refine ⟨_, s, parse_clash, hl, rfl, hm, rfl, hp, fun h => ?_, fun h => ?_⟩
  case refine_1 => cases hm.symm.trans h.size
  case refine_2 => cases hp.symm.trans h.size

end EbpfManager.Collection
