import EbpfManager.Elf.Writer
import EbpfManager.Object.Description
import EbpfManager.Proofs.Files.Growth
import EbpfManager.Proofs.Handles.Collections
import EbpfManager.Proofs.Loading.Assembly
import EbpfManager.Proofs.Loading.Undoing
import EbpfManager.Proofs.Objects.Layout

namespace EbpfManager

open Files (Tree Place)

variable {h : Host} {t₀ t t' : Tree} {place : Place} {maps : Table String Map}

namespace Assembly

variable {options : Options} {d : MapDefinition} {ds done : List MapDefinition} {a a' : Assembly}
  {names : List String}

theorem finds_insert {m : Map} {name : String} (hn : name ∉ names) :
    Finds (maps.insert name m) t names place ↔ Finds maps t names place := by
  refine exists_congr fun name' => and_congr_right fun hm => ?_
  have he : name ≠ name' := fun he => hn (he ▸ hm)
  simp [pathOf?, Table.get?_insert, he]

theorem finds_concat {m : Map} {name : String} {path : Path} (hn : name ∉ names)
    (hp : m.pinPath = some path) :
    Finds (maps.insert name m) t (names ++ [name]) place ↔
      Finds maps t names place ∨ t.HasFile path place := by
  rw [← finds_insert (m := m) hn]
  simp only [Finds, List.mem_append, List.mem_singleton, or_and_right, exists_or, exists_eq_left]
  simp [pathOf?, Table.get?_insert, hp]

-- While the names of the maps are distinct, the names noted lead to the files created.
structure Tracks (t₀ : Tree) (done : List MapDefinition) (a : Assembly) (t : Tree) : Prop where
  grows       : t₀.Grows t
  noted       : a.pinned ⊆ done.map MapDefinition.name
  finds place : Finds a.maps t a.pinned place ↔ t₀.Gains t place

theorem Tracks.adds (k : Tracks t₀ done a t) (hn : d.name ∉ done.map MapDefinition.name)
    (hd : Adds options d a a' t t') : Tracks t₀ (done ++ [d]) a' t' := by
  obtain ⟨m, _, hm, hc⟩ := hd
  have hn : d.name ∉ a.pinned := fun h => hn (k.noted h)
  cases hc
  case inl hc =>
    obtain ⟨hp, ht⟩ := hc
    subst ht
    refine ⟨k.grows, ?_, fun place => ?_⟩
    case refine_1 =>
      rw [hp, List.map_append]
      exact List.subset_append_of_subset_left _ k.noted
    case refine_2 => rw [hm, hp, finds_insert hn, k.finds]
  case inr hc =>
    obtain ⟨path, hpath, hp, ht⟩ := hc
    refine ⟨k.grows.create ht, ?_, fun place => ?_⟩
    case refine_1 =>
      rw [hp, List.map_append]
      exact List.append_subset.mpr
        ⟨List.subset_append_of_subset_left _ k.noted, List.subset_append_right ..⟩
    case refine_2 =>
      rw [hm, hp, finds_concat hn hpath, Files.Tree.gains_create_iff k.grows ht, ← k.finds]
      constructor
      case mp =>
        intro h
        cases h
        case inr hf => exact .inr hf
        case inl hf =>
          obtain ⟨name, hn, path', hp', hf⟩ := hf
          exact (Files.Tree.hasFile_of_create ht hf).imp_left fun hf => ⟨name, hn, path', hp', hf⟩
      case mpr =>
        refine Or.imp_left ?_
        rintro ⟨name, hn, path', hp', hf⟩
        exact ⟨name, hn, path', hp', (Files.Tree.Grows.of_create ht).hasFile hf⟩

theorem addMaps_tracks (hn : ((done ++ ds).map MapDefinition.name).Nodup)
    (k : Tracks t₀ done a h.machine.files) :
    Ends (addMaps options ds) (a, h)
      (fun _ s => ∃ done, Tracks t₀ done s.1 s.2.machine.files)
      fun _ s => ∃ done, Tracks t₀ done s.1 s.2.machine.files := by
  induction ds generalizing done a h
  case nil => exact ⟨done, k⟩
  case cons d ds ih =>
    have hd : d.name ∉ done.map MapDefinition.name := by
      rw [List.map_append, List.map_cons] at hn
      have hd := List.disjoint_of_nodup_append hn
      exact fun hm => hd hm List.mem_cons_self
    refine ends_bind.mpr <| addMap_adds.imp ?_ ?_
    case refine_1 =>
      rintro _ ⟨a', h'⟩ ha
      exact ih (by simpa using hn) (k.adds hd ha)
    case refine_2 =>
      rintro _ ⟨a', h'⟩ hf
      obtain ⟨_, ha, hf⟩ := hf
      exact ⟨done, by rwa [ha, hf]⟩

-- As many names are noted as files have been created, whatever the names are.
structure Notes (t₀ : Tree) (a : Assembly) (t : Tree) : Prop where
  grows : t₀.Grows t
  count : ∃ places : List Place, places.Nodup ∧ places.length = a.pinned.length ∧
            ∀ place, place ∈ places ↔ t₀.Gains t place

theorem notes_start (t : Tree) : Notes t {} t where
  grows := .refl t
  count := ⟨[], List.nodup_nil, rfl, fun place => by simp [Files.Tree.Gains]⟩

theorem Notes.adds (n : Notes t₀ a t) (hd : Adds options d a a' t t') : Notes t₀ a' t' := by
  obtain ⟨_, _, _, hc⟩ := hd
  obtain ⟨places, hn, hl, hp⟩ := n.count
  cases hc
  case inl hc =>
    obtain ⟨hpinned, ht⟩ := hc
    subst ht
    exact ⟨n.grows, places, hn, hpinned ▸ hl, hp⟩
  case inr hc =>
    obtain ⟨path, _, hpinned, ht⟩ := hc
    obtain ⟨q, hq, _, hf⟩ := Files.Tree.exists_hasFile_of_create ht
    have hq : q ∉ places := fun hm => ((hp q).mp hm).right hq
    refine ⟨n.grows.create ht, q :: places, List.nodup_cons.mpr ⟨hq, hn⟩, by simp [hpinned, hl], ?_⟩
    intro place
    rw [List.mem_cons, hp, Files.Tree.gains_create_iff n.grows ht, hf, or_comm, eq_comm]

-- Each created file takes up a name of its own, so that no name is left for another file.
theorem Notes.gains_of_finds (n : Notes t₀ a t)
    (hc : ∀ place, t₀.Gains t place → Finds a.maps t a.pinned place)
    (hf : Finds a.maps t a.pinned place) : t₀.Gains t place := by
  obtain ⟨places, hn, hl, hp⟩ := n.count
  choose! name hname using fun place hm => hc place ((hp place).mp hm)
  have hinj : ∀ p ∈ places, ∀ q ∈ places, name p = name q → p = q := by
    intro p hm q hm' he
    obtain ⟨_, path, hpath, hf⟩ := hname p hm
    obtain ⟨_, path', hpath', hf'⟩ := hname q hm'
    cases (he ▸ hpath).symm.trans hpath'
    exact hf.left.unique hf'.left
  have hsub : places.map name ⊆ a.pinned := by
    intro n hm
    obtain ⟨p, hm, he⟩ := List.mem_map.mp hm
    exact he ▸ (hname p hm).left
  have hperm : (places.map name).Perm a.pinned :=
    (List.subperm_of_subset (hn.map_on hinj) hsub).perm_of_length_le (by simp [hl])
  obtain ⟨n', hm, path, hpath, hf⟩ := hf
  obtain ⟨q, hq, he⟩ := List.mem_map.mp (hperm.mem_iff.mpr hm)
  obtain ⟨_, path', hpath', hf'⟩ := hname q hq
  cases (he ▸ hpath').symm.trans hpath
  exact (hp place).mp (hf'.left.unique hf.left ▸ hq)

theorem addMap_notes :
    Maintains (fun s => Notes t₀ s.1 s.2.machine.files) (addMap options d) := by
  rintro ⟨a, h⟩ n
  refine addMap_adds.imp (fun _ s hd => n.adds hd) fun _ s hf => ?_
  obtain ⟨_, ha, hf⟩ := hf
  rwa [ha, hf]

-- Building only makes maps: programs are nothing to the host.
theorem build_ends {o : ObjectFile} {keep : Assembly × Host → Prop}
    (hm : Ends (addMaps options o.maps) (a, h) (fun _ => keep) fun _ => keep) :
    Ends (build options o) (a, h) (fun _ => keep) fun _ => keep :=
  ends_build hm (fun _ _ hk _ => hk) fun _ _ hk _ => hk

theorem build_notes (options : Options) (o : ObjectFile) (h : Host) :
    Ends (build options o) ({}, h) (fun _ s => Notes h.machine.files s.1 s.2.machine.files)
      fun _ s => Notes h.machine.files s.1 s.2.machine.files :=
  build_ends <| Ends.forM (fun _ s => addMap_notes s) o.maps ({}, h) (notes_start _)

theorem build_tracks (options : Options) {o : ObjectFile} (h : Host)
    (hn : (o.maps.map MapDefinition.name).Nodup) :
    Ends (build options o) ({}, h)
      (fun _ s => ∃ done, Tracks h.machine.files done s.1 s.2.machine.files)
      fun _ s => ∃ done, Tracks h.machine.files done s.1 s.2.machine.files := by
  have k : Tracks h.machine.files [] {} h.machine.files := {
    grows := .refl _
    noted := List.nil_subset _
    finds := by simp [Finds, Files.Tree.Gains] }
  have hn : (([] ++ o.maps).map MapDefinition.name).Nodup := hn
  exact build_ends <| addMaps_tracks hn k

end Assembly

namespace Collection

-- What had been made when loading came to its end, and the host then.
def made (c : Collection) (data : Bytes) (h : Host) : Assembly × Host :=
  match ObjectFile.parse data with
  | .error _ => ({}, h)
  | .ok o    => if c.loaded then ({}, h) else (Edit.outcome (Assembly.build c.options o) {} h).2

-- That loading created a file, and that undoing finds one.
def Created (c : Collection) (data : Bytes) (h : Host) (place : Place) : Prop :=
  h.machine.files.Gains (c.made data h).2.machine.files place

def Found (c : Collection) (data : Bytes) (h : Host) (place : Place) : Prop :=
  Assembly.Finds (c.made data h).1.maps (c.made data h).2.machine.files (c.made data h).1.pinned place

-- Nothing is left of what loading did: `s` are the collection and the host after it.
structure NoTrace (c : Collection) (h : Host) (s : Collection × Host) : Prop where
  collection    : s.1 = c
  handles       : s.2.machine.handles = h.machine.handles
  created place : h.machine.files.entry? place = none → s.2.machine.files.entry? place = none
  earlier place : h.machine.files.entry? place ≠ none →
                    s.2.machine.files.entry? place = h.machine.files.entry? place

-- What is left after loading has failed.
structure Undone (c : Collection) (data : Bytes) (h : Host) (s : Collection × Host) : Prop where
  collection    : s.1 = c
  handles       : s.2.machine.handles = h.machine.handles
  created place : c.Created data h place →
                    (s.2.machine.files.entry? place = none ↔ c.Found data h place)
  earlier place : h.machine.files.entry? place ≠ none →
                    (s.2.machine.files.entry? place = h.machine.files.entry? place ↔
                      ¬c.Found data h place)
  exactly       : NoTrace c h s ↔ ∀ place, c.Created data h place → c.Found data h place
  distinct      : (∀ o, ObjectFile.parse data = .ok o → (o.maps.map MapDefinition.name).Nodup) →
                    NoTrace c h s

section

variable {c : Collection} {data : Bytes} {s : Collection × Host} {e : Error}

theorem made_notes (c : Collection) (data : Bytes) (h : Host) :
    Assembly.Notes h.machine.files (c.made data h).1 (c.made data h).2.machine.files := by
  unfold made
  split
  case h_1 => exact Assembly.notes_start _
  case h_2 o _ =>
    split
    case isTrue => exact Assembly.notes_start _
    case isFalse =>
      have hb := ends_iff_editOutcome.mp <| Assembly.build_notes c.options o h
      split at hb
      case h_1 hb' | h_2 hb' => rwa [hb']

-- Maps of distinct names are found again.
theorem found_of_created
    (hn : ∀ o, ObjectFile.parse data = .ok o → (o.maps.map MapDefinition.name).Nodup)
    (hg : c.Created data h place) : c.Found data h place := by
  unfold Created made at hg
  unfold Found made
  cases hp : ObjectFile.parse data
  case error => simp [hp, Files.Tree.Gains] at hg
  case ok o =>
    rw [hp] at hg
    dsimp only at hg ⊢
    split at hg
    case isTrue => simp [Files.Tree.Gains] at hg
    case isFalse hl =>
      have hb := ends_iff_editOutcome.mp <| Assembly.build_tracks c.options h (hn o hp)
      rw [if_neg hl]
      split at hb
      case h_1 hb' | h_2 hb' =>
        obtain ⟨_, k⟩ := hb
        rw [hb'] at hg ⊢
        exact (k.finds place).mpr hg

-- What is undone is what had been made.
theorem load_undoes (c : Collection) (data : Bytes) (h : Host) :
    Ends (load data) (c, h) (fun _ _ => True)
      fun _ s => s.2.machine.files = ((c.made data h).1.undo (c.made data h).2).machine.files := by
  have nothing : (({} : Assembly).undo h).machine.files = h.machine.files := rfl
  refine ends_load (fun hl => ?_) (fun e _ hp => ?_) fun o hl hp => ?_
  case refine_1 =>
    unfold made
    cases ObjectFile.parse data
    case error => exact nothing
    case ok => simp only [hl, if_true, nothing]
  case refine_2 => simp only [made, hp, nothing]
  case refine_3 =>
    refine ends_iff_editOutcome.mpr ?_
    simp only [made, hp, hl, Bool.false_eq_true, if_false]
    split
    case h_1 => exact fun _ => trivial
    case h_2 he => rw [he]

-- Loading that fails leaves what it undid.
theorem files_of_load_error (he : Edit.outcome (load data) c h = (.error e, s)) :
    s.2.machine.files = ((c.made data h).1.undo (c.made data h).2).machine.files := by
  have hl := ends_iff_editOutcome.mp <| load_undoes c data h
  rwa [he] at hl

theorem entry?_of_found (he : Edit.outcome (load data) c h = (.error e, s))
    (hp : c.Found data h place) : s.2.machine.files.entry? place = none := by
  rw [files_of_load_error he]
  exact (Assembly.undo_entry ..).left hp

theorem entry?_of_not_found (he : Edit.outcome (load data) c h = (.error e, s))
    (hp : ¬c.Found data h place) :
    s.2.machine.files.entry? place = (c.made data h).2.machine.files.entry? place := by
  rw [files_of_load_error he]
  exact (Assembly.undo_entry ..).right hp

theorem entry?_of_not_created (hg : ¬c.Created data h place) :
    (c.made data h).2.machine.files.entry? place = h.machine.files.entry? place := by
  cases (made_notes c data h).grows.entry place
  case inl hm => exact hm
  case inr hm => exact absurd ⟨hm.left, by simp [hm.right]⟩ hg

-- Loading that fails leaves the collection and the open handles alone.
theorem kept_of_load_error (hf : h.faults = []) (hr : h.machine.Reachable)
    (he : Edit.outcome (load data) c h = (.error e, s)) :
    s.1 = c ∧ s.2.machine.handles = h.machine.handles := by
  have hl : Ends (load data) (c, h) _ _ := load_holds (Host.holds_refl hr.consistent hf)
  have hl := ends_iff_editOutcome.mp hl
  rw [he] at hl
  have hh : h.Holds s.2 h.machine.held := hl.right
  exact ⟨hl.left, Machine.Becomes.handles_eq hr.consistent hh.becomes⟩

theorem noTrace_iff (hf : h.faults = []) (hr : h.machine.Reachable)
    (he : Edit.outcome (load data) c h = (.error e, s)) :
    NoTrace c h s ↔ ∀ place, c.Created data h place → c.Found data h place := by
  constructor
  case mp =>
    intro hs place hg
    by_contra hp
    exact hg.right <| (entry?_of_not_found he hp).symm.trans (hs.created place hg.left)
  case mpr =>
    intro hs
    -- If all that was created is found, then nothing else is.
    have back {place} (hp : c.Found data h place) : c.Created data h place :=
      (made_notes c data h).gains_of_finds hs hp
    have hk := kept_of_load_error hf hr he
    refine ⟨hk.left, hk.right, fun place hn => ?_, fun place hn => ?_⟩
    case refine_1 =>
      by_cases hp : c.Found data h place
      case pos => exact entry?_of_found he hp
      case neg => rw [entry?_of_not_found he hp, entry?_of_not_created (mt (hs place) hp), hn]
    case refine_2 =>
      have hp : ¬c.Found data h place := fun hp => hn (back hp).left
      rw [entry?_of_not_found he hp, entry?_of_not_created fun hg => hn hg.left]

-- The collection and the open handles are as before. The files are as before exactly if each file that was created
-- is that of a map found under a name noted, which holds as long as no two maps have the same name.
theorem undone (hf : h.faults = []) (hr : h.machine.Reachable)
    (he : Edit.outcome (load data) c h = (.error e, s)) : Undone c data h s := by
  have hk := kept_of_load_error hf hr he
  have exactly := noTrace_iff hf hr he
  exact {
    collection := hk.left
    handles    := hk.right
    created place hg := by
      refine ⟨fun hn => ?_, entry?_of_found he⟩
      by_contra hp
      exact hg.right (entry?_of_not_found he hp ▸ hn)
    earlier place hn := by
      refine ⟨fun hs hp => hn (hs ▸ entry?_of_found he hp), fun hp => ?_⟩
      rw [entry?_of_not_found he hp, entry?_of_not_created fun hg => hn hg.left]
    exactly     := exactly
    distinct hn := exactly.mpr fun place hg => found_of_created hn hg }

end

-- An object with two maps of the same name, and a third map that no kernel takes.
def twins : Object.Description where
  maps := [
    { name := "m", kindNumber := 1, keySize := 4, valueSize := 4, maxEntries := 8, pin := some "a" },
    { name := "m", kindNumber := 1, keySize := 4, valueSize := 4, maxEntries := 8, pin := some "b" },
    { name := "bad", kindNumber := 2, keySize := 8, valueSize := 4, maxEntries := 8 }]

open Object in
theorem parse_twins : ObjectFile.parse twins.draft.write = .ok {
    license := "GPL"
    kernelVersion := none
    maps := [
      ⟨"m", ⟨.hash, 4, 4, 8, 0⟩, none, some ⟨"a"⟩⟩,
      ⟨"m", ⟨.hash, 4, 4, 8, 0⟩, none, some ⟨"b"⟩⟩,
      ⟨"bad", ⟨.array, 8, 4, 8, 0⟩, none, none⟩]
    programs := [] } := by
  simp only [ObjectFile.parse, ofImage, Object.maps, readMaps, programsIn, ProgramSection.programs,
    ProgramSection.programRanges, ProgramSection.loadsAt, ranges, marks, mergeSort_key_eq_insertionSort]
  decide +kernel

def here : Collection := { options := { pinRoot := ⟨"."⟩ } }

-- A map is pinned at `b` already, and nothing at `a`.
def pinnedHost : Host where
  machine := ((({} : Machine).answer (.mapCreate ⟨"m", ⟨.hash, 4, 4, 8, 0⟩, none⟩)).2.answer
    (.objectPin 3 ⟨"./b"⟩)).2

theorem pinnedHost_reachable : pinnedHost.machine.Reachable :=
  .request _ (.request _ (.start .empty))

-- The first map makes the file `a`, the second takes over the file `b` and the name: undoing finds `b`.
theorem load_twins : ∃ e s, Edit.outcome (load twins.draft.write) here pinnedHost = (.error e, s) ∧
    pinnedHost.machine.files.entry? ⟨.working 0, ["a"]⟩ = none ∧
    s.2.machine.files.entry? ⟨.working 0, ["a"]⟩ ≠ none ∧
    pinnedHost.machine.files.entry? ⟨.working 0, ["b"]⟩ ≠ none ∧
    s.2.machine.files.entry? ⟨.working 0, ["b"]⟩ = none := by
  have he : (Edit.outcome (load twins.draft.write) here pinnedHost).1 =
      .error (.kernelRejected .mapCreate "bad" (.errno Errno.invalid)) := by
    simp only [Edit.outcome, load, parse_twins]
    decide +kernel
  refine ⟨_, (Edit.outcome (load twins.draft.write) here pinnedHost).2, by rw [← he], ?_⟩
  simp only [Edit.outcome, load, parse_twins]
  decide +kernel

theorem twins_undone : ∃ e s, Edit.outcome (load twins.draft.write) here pinnedHost = (.error e, s) ∧
    Undone here twins.draft.write pinnedHost s := by
  obtain ⟨e, s, he, _⟩ := load_twins
  exact ⟨e, s, he, undone rfl pinnedHost_reachable he⟩

theorem twins_leave_trace : ∃ e s, Edit.outcome (load twins.draft.write) here pinnedHost = (.error e, s) ∧
    pinnedHost.faults = [] ∧ pinnedHost.machine.Reachable ∧ ¬NoTrace here pinnedHost s := by
  obtain ⟨e, s, he, hn, ha, _⟩ := load_twins
  exact ⟨e, s, he, rfl, pinnedHost_reachable, fun t => ha (t.created _ hn)⟩

end Collection

end EbpfManager
