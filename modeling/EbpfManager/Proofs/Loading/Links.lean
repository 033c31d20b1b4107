import EbpfManager.Proofs.Handles.Collections
import EbpfManager.Proofs.Linking.Instructions
import EbpfManager.Proofs.Loading.Assembly
import EbpfManager.Proofs.Objects.Records
import EbpfManager.Proofs.Objects.WellFormed

namespace EbpfManager

open Elf Object

namespace Object

variable {image : Image} {number : Nat} {sec : Section} {contents : Bytes} {f : Symbol}
  {o : ObjectFile}

-- A section of programs. The section with number 0 is none.
structure HoldsPrograms (image : Image) (number : Nat) (sec : Section) (contents : Bytes) : Prop where
  section_ : image.sections[number]? = some sec
  positive : 0 < number
  code     : sec.isCode
  contents : sec.contents = some contents
  kind     : ∃ name kind, sec.name.bind Text.decode? = some name ∧ name ≠ ".text" ∧
               ProgramKind.ofSectionName? name = some kind

-- What a compiler emits: no name is used twice, the functions of the section are apart, and each
-- relocation changes an instruction of its own.
structure Unambiguous (image : Image) (o : ObjectFile) (number : Nat) (sec : Section)
    (contents : Bytes) : Prop where
  maps          : (o.maps.map MapDefinition.name).Nodup
  programs      : (o.programs.map ProgramDefinition.name).Nodup
  functions     : ((functionsIn image number).map (part image number contents)).Pairwise Apart
  relocations f : f ∈ functionsIn image number → sec.relocations.Pairwise fun r r' =>
                    ∀ i, Hits (part image number contents f) i r →
                      ¬Hits (part image number contents f) i r'

-- The map that was made of the one record at a place.
def MadeAt (options : Options) (image : Image) (t : Target) (table : Table String Map) (m : Map) :
    Prop :=
  ∃ sec contents records record, image.sectionNamed? "maps" = some (sec, t.number) ∧
    sec.contents = some contents ∧ maps image = .ok (some t.number, records) ∧
    records.filter (·.offset = t.address) = [record] ∧
    RecordAt image t.number contents t.address record.definition ∧
    table.get? record.definition.name = some m ∧
    (Assembly.declare options record.definition).Opened m

-- The code of a part of a section, linked.
structure LinkedCode (options : Options) (image : Image) (sec : Section) (contents : Bytes)
    (range : Range) (table : Table String Map) (code : Bytes) : Prop where
  length   : code.length = range.length
  load r i : r ∈ sec.relocations → Hits range i r → ∃ t m fd, RefersTo image contents r t ∧
               MadeAt options image t table m ∧ m.handle = .live fd ∧
               code.instruction i =
                 Linking.withHandle fd ((octetsOf contents range).instruction i)
  rest i   : (∀ r ∈ sec.relocations, ¬Hits range i r) →
               code.instruction i = (octetsOf contents range).instruction i

-- A record of the maps is the one at its place, and what is read there is its definition.
theorem record_of_mem {mapsNumber : Option Nat} {records : List MapRecord} {record : MapRecord}
    (h : maps image = .ok (mapsNumber, records)) (hr : record ∈ records) :
    ∃ sec number contents, image.sectionNamed? "maps" = some (sec, number) ∧
      mapsNumber = some number ∧ sec.contents = some contents ∧
      records.filter (·.offset = record.offset) = [record] ∧
      RecordAt image number contents record.offset record.definition := by
  obtain ⟨sec, number, hs, hn, hread⟩ := readMaps_of_mem h hr
  obtain ⟨contents, hc, ha⟩ := readMaps_recordAt hread hr
  exact ⟨sec, number, contents, hs, hn, hc, filter_eq_singleton (readMaps_pairwise hread) hr, ha⟩

theorem programsIn_eq_ok {license : String} {mapsNumber : Option Nat} {records : List MapRecord}
    {ds : List ProgramDefinition} (hs : HoldsPrograms image number sec contents)
    (h : programsIn image license mapsNumber records sec number = .ok ds) : ∃ name kind,
      (⟨number, name, kind, license, contents, sec.relocations⟩ : ProgramSection).programs image
        mapsNumber records = .ok ds := by
  obtain ⟨name, kind, hname, htext, hkind⟩ := hs.kind
  simp only [programsIn, hs.code, hname, htext, hkind, contentsOf, hs.contents] at h
  exact ⟨name, kind, h⟩

-- The sections that are looked at for programs begin with number 1.
theorem getElem?_drop_zipIdx (hn : 0 < number) (hs : image.sections[number]? = some sec) :
    (image.sections.zipIdx.drop 1)[number - 1]? = some (sec, number) := by
  have hn : 1 + (number - 1) = number := by omega
  rw [List.getElem?_drop, hn]
  simp [hs]

theorem exists_definition (h : ofImage image = .ok o)
    (hs : HoldsPrograms image number sec contents) (hu : Unambiguous image o number sec contents)
    (hf : f ∈ functionsIn image number) : ∃ name kind mapsNumber records, ∃ d ∈ o.programs,
      maps image = .ok (mapsNumber, records) ∧ o.maps = records.map MapRecord.definition ∧
      ProgramSection.ReadAs image ⟨number, name, kind, o.license, contents, sec.relocations⟩
        mapsNumber records (part image number contents f) d := by
  simp only [ofImage, bind_eq_ok, Prod.exists] at h
  obtain ⟨license, _, version, _, mapsNumber, records, hm, programs, hp, he⟩ := h
  cases he
  have hsec : (sec, number) ∈ image.sections.zipIdx.drop 1 :=
    List.mem_of_getElem? (getElem?_drop_zipIdx hs.positive hs.section_)
  obtain ⟨ds, hds, hin⟩ := exists_of_mem_left (mapM_eq_ok.mp hp) hsec
  obtain ⟨name, kind, hprograms⟩ := programsIn_eq_ok hs hin
  obtain ⟨d, hd, hr⟩ := ProgramSection.exists_readAs hprograms hu.functions hf (hu.relocations f hf)
  exact ⟨name, kind, mapsNumber, records, d, List.mem_flatten.mpr ⟨ds, hds, hd⟩, hm, rfl, hr⟩

end Object

variable {options : Options} {maps : Table String Map} {h : Host}

namespace Assembly

theorem build_covers (options : Options) (o : ObjectFile) (h : Host) :
    Ends (build options o) ({}, h)
      (fun t s => Covers options o.maps s.1.maps ∧
        programs options (o.kernelVersion.getD options.kernelVersion) s.1.maps o.programs = .ok t)
      fun _ _ => True := by
  have hm : Ends (addMaps options o.maps) ({}, h) (fun _ s => Covers options o.maps s.1.maps)
      fun _ _ => True :=
    (addMaps_covers o.maps).imp (fun _ _ hc => hc) fun _ _ _ => trivial
  exact ends_build hm (fun _ _ hc ht => ⟨hc, ht⟩) fun _ _ _ _ => trivial

end Assembly

namespace Collection

theorem load_covers (c : Collection) (data : Bytes) (h : Host) :
    Ends (load data) (c, h)
      (fun _ s => ∃ o, ObjectFile.parse data = .ok o ∧ Assembly.Covers c.options o.maps s.1.maps ∧
        Assembly.programs c.options (o.kernelVersion.getD c.options.kernelVersion) s.1.maps
          o.programs = .ok s.1.programs)
      fun _ _ => True := by
  refine ends_load (fun _ => trivial) (fun _ _ _ => trivial) fun o _ hp => ?_
  exact (Assembly.build_covers c.options o h).imp (fun _ _ hb _ => ⟨o, hp, hb⟩) fun _ _ _ => trivial

section

variable {c : Collection} {data : Bytes} {s : Collection × Host}

theorem made_of_load (hl : Edit.outcome (load data) c h = (.ok (), s)) (hf : h.faults = [])
    (hr : h.machine.Reachable) : Assembly.Made h h.machine.held s.1.maps s.2 := by
  have hh : Ends (load data) (c, h) _ _ := load_holds (Host.holds_refl hr.consistent hf)
  have hh := ends_iff_editOutcome.mp hh
  rw [hl] at hh
  exact hh.right.right.left

-- The maps of a collection that was filled are open on maps of the kernel.
theorem load_open (hl : Edit.outcome (load data) c h = (.ok (), s)) (hf : h.faults = [])
    (hr : h.machine.Reachable) {name : String} {m : Map} {fd : Fd}
    (hm : s.1.maps.get? name = some m) (hlive : m.handle = .live fd) :
    ∃ id, s.2.machine.handles.get? fd = some (.map id) := by
  obtain ⟨hs, hh⟩ := made_of_load hl hf hr
  obtain ⟨others, ht, _⟩ := hs.total_focus Map.held hm
  rw [ht, add_assoc] at hh
  obtain ⟨object, hg, hk⟩ := hh.get? (Map.mem_held hlive)
  cases object
  case map id => exact ⟨id, hg⟩
  case program | link => cases hk

-- A function of an object becomes a program whose code is that of the function, but for the loads: each has the
-- handle of the map whose record its relocation refers to.
theorem load_links {image : Image} {o : ObjectFile} {number : Nat} {sec : Section}
    {contents : Bytes} {f : Symbol} {name : String}
    (hl : Edit.outcome (load data) c h = (.ok (), s))
    (hi : Image.read? data = some image) (ho : ObjectFile.parse data = .ok o)
    (hs : HoldsPrograms image number sec contents) (hu : Unambiguous image o number sec contents)
    (hf : f ∈ functionsIn image number) (hn : f.name = some name) :
    (∃ p, s.1.programs.get? name = some p ∧
      LinkedCode c.options image sec contents (part image number contents f) s.1.maps p.code) ∧
    (h.faults = [] → h.machine.Reachable → ∀ name m fd, s.1.maps.get? name = some m →
      m.handle = .live fd → ∃ id, s.2.machine.handles.get? fd = some (.map id)) := by
  refine ⟨?_, fun hf hr _ _ _ => load_open hl hf hr⟩
  have hc := ends_iff_editOutcome.mp <| load_covers c data h
  rw [hl] at hc
  obtain ⟨o', ho', hcovers, hprograms⟩ := hc
  cases ho.symm.trans ho'
  have hp : ofImage image = .ok o := by simpa [ObjectFile.parse, hi] using ho
  obtain ⟨_, _, mapsNumber, records, d, hd, hmaps, hrecords, hread⟩ := exists_definition hp hs hu hf
  obtain ⟨p, hg, hp⟩ := (Assembly.programs_collects hprograms).get? hu.programs hd
  obtain ⟨hlength, hlinked, hrest⟩ := d.relocate_eq_ok hread.distinct hp.code
  have hname : d.name = name := by rw [hread.name, part, rangeOf, hn]; rfl
  refine ⟨p, hname ▸ hg, ?_⟩
  exact {
    length := hlength.trans hread.length
    load r i hr hi := by
      obtain ⟨t, record, hrecord, ht, hnumber, haddress, hload⟩ := hread.load r i hr hi
      obtain ⟨msec, mnumber, mcontents, hnamed, hm, hmc, hone, hat⟩ := record_of_mem hmaps hrecord
      cases hm.symm.trans hnumber.symm
      rw [haddress] at hone hat
      obtain ⟨m, fd, hg, hlive, hcode⟩ := hlinked _ hload
      -- The handle is that of the map under the record's name. There is one such definition, and so
      -- the map under that name was made of it.
      have hdef : record.definition ∈ o.maps := hrecords ▸ List.mem_map_of_mem hrecord
      obtain ⟨m', hg', hopened⟩ := hcovers.get? hu.maps hdef
      cases hg.symm.trans hg'
      exact ⟨t, m, fd, ht, ⟨msec, mcontents, _, _, hnamed, hmc, hm ▸ hmaps, hone, hat, hg, hopened⟩,
        hlive, by rw [hcode, hread.code]⟩
    rest i hn := by
      rw [← hread.code]
      refine hrest i fun l hl he => ?_
      obtain ⟨r, hr, hi⟩ := hread.origin l hl
      exact hn r hr (he ▸ hi) }

end

-- The section of the two programs of `gate`: the first counts in the first map, the second in the
-- second.
def gateContents : Bytes :=
  Description.gate.programs.flatMap (·.code)

def gateSection : Section where
  name        := some [120, 100, 112]
  isCode      := true
  contents    := some gateContents
  relocations := [⟨8, some 1, .inPlace⟩, ⟨32, some 2, .inPlace⟩]

def gateImage : Image :=
  (Image.read? Description.gate.draft.write).get (by decide +kernel)

def leave : Symbol :=
  ⟨some "leave", .function, some 4, 32, 24⟩

theorem holdsPrograms_gate : HoldsPrograms gateImage 4 gateSection gateContents where
  section_ := by decide +kernel
  positive := by decide
  code     := rfl
  contents := rfl
  kind     := ⟨"xdp", .xdp, by decide +kernel, by decide, by decide +kernel⟩

theorem unambiguous_gate {o : ObjectFile} (ho : ObjectFile.parse Description.gate.draft.write = .ok o) :
    Unambiguous gateImage o 4 gateSection gateContents := by
  cases ObjectFile.parse_gate.symm.trans ho
  -- No function has both relocations.
  have hr : ∀ f ∈ functionsIn gateImage 4, gateSection.relocations.Pairwise fun r r' =>
      (part gateImage 4 gateContents f).Contains r.offset →
        ¬(part gateImage 4 gateContents f).Contains r'.offset := by
    decide +kernel
  exact {
    maps      := by decide
    programs  := by decide
    functions := by decide +kernel
    relocations f hf := (hr f hf).imp fun hr _ h h' => hr h.left h'.left }

theorem load_gate : ∃ s,
    Edit.outcome (load Description.gate.draft.write) { options := { pinRoot := ⟨"."⟩ } } {} = (.ok (), s) := by
  have he : (Edit.outcome (load Description.gate.draft.write) { options := { pinRoot := ⟨"."⟩ } } {}).1 =
      .ok () := by
    simp only [Edit.outcome, load, ObjectFile.parse_gate]
    decide +kernel
  exact ⟨(Edit.outcome (load Description.gate.draft.write) _ _).2, by rw [← he]⟩

theorem load_links_of_gate : ∃ s,
    Edit.outcome (load Description.gate.draft.write) { options := { pinRoot := ⟨"."⟩ } } {} = (.ok (), s) ∧
    (∃ p, s.1.programs.get? "leave" = some p ∧
      LinkedCode { pinRoot := ⟨"."⟩ } gateImage gateSection gateContents
        (part gateImage 4 gateContents leave) s.1.maps p.code) ∧
    ∀ name m fd, s.1.maps.get? name = some m → m.handle = .live fd →
      ∃ id, s.2.machine.handles.get? fd = some (.map id) := by
  obtain ⟨s, hl⟩ := load_gate
  have hi : Image.read? Description.gate.draft.write = some gateImage := by rw [gateImage, Option.some_get]
  have hf : leave ∈ functionsIn gateImage 4 := by decide +kernel
  obtain ⟨hp, ho⟩ := load_links hl hi ObjectFile.parse_gate holdsPrograms_gate
    (unambiguous_gate ObjectFile.parse_gate) hf rfl
  exact ⟨s, hl, hp, ho rfl (.start .empty)⟩

end Collection

end EbpfManager
