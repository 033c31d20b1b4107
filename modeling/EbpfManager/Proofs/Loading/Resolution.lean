import EbpfManager.Proofs.Loading.Assembly
import EbpfManager.Proofs.Objects.WellFormed

namespace EbpfManager

variable {options : Options} {maps : Table String Map} {h : Host}

-- An open map goes by that name.
def Table.HasOpen (maps : Table String Map) (name : String) : Prop :=
  ∃ m fd, maps.get? name = some m ∧ m.handle = .live fd

theorem Assembly.Covers.hasOpen {ds : List MapDefinition} (hc : Covers options ds maps) {name : String}
    (hn : name ∈ ds.map MapDefinition.name) : maps.HasOpen name := by
  obtain ⟨d, hl⟩ := exists_lastNamed? hn
  obtain ⟨m, hg, fd, cpus, hm⟩ := hc.get?_of_last hl
  exact ⟨m, fd, hg, by rw [hm]⟩

theorem Linking.link_resolved {program : String} {code : Bytes} {l : MapLoad} {e : Error}
    (ho : maps.HasOpen l.map) (h : link program maps code l = .error e) : ¬e.Unresolved := by
  obtain ⟨m, fd, hg, hm⟩ := ho
  simp only [link, hg, Option.bind_some, hm, Handle.fd?] at h
  split at h
  case isTrue =>
    cases h
    simp [Error.Unresolved]
  case isFalse =>
    split at h <;> cases h
    simp [Error.Unresolved]

theorem ProgramDefinition.relocate_resolved {d : ProgramDefinition} {e : Error}
    (ho : ∀ l ∈ d.loads, maps.HasOpen l.map) (h : d.relocate maps = .error e) : ¬e.Unresolved := by
  obtain ⟨l, hl, code, h⟩ := exists_of_foldlM_eq_error h
  exact Linking.link_resolved (ho l hl) h

theorem Assembly.programs_resolved {version : UInt32} {ds : List ProgramDefinition} {e : Error}
    (ho : ∀ d ∈ ds, ∀ l ∈ d.loads, maps.HasOpen l.map)
    (h : programs options version maps ds = .error e) : ¬e.Unresolved := by
  obtain ⟨d, hd, t, h⟩ := exists_of_foldlM_eq_error h
  cases hr : d.relocate maps
  case ok code => simp [program, hr] at h
  case error e' =>
    have he : e' = e := by simpa [program, hr] using h
    exact he ▸ d.relocate_resolved (ho d hd) hr

theorem Assembly.build_resolved (options : Options) {o : ObjectFile} (hw : o.WellFormed) :
    Ends (build options o) ({}, h) (fun _ _ => True) fun e _ => ¬e.Unresolved := by
  refine ends_build (addMaps_covers o.maps) (fun _ _ _ _ => trivial) ?_
  intro s e hc he
  refine programs_resolved (fun d hd l hl => ?_) he
  exact Covers.hasOpen hc ((hw.programs d hd).defined l hl)

namespace Collection

theorem load_resolved {c : Collection} (data : Bytes) :
    Ends (load data) (c, h) (fun _ _ => True) fun e _ => ¬e.Unresolved := by
  refine ends_load ?_ ?_ fun o _ hp => ?_
  case refine_1 => simp [Error.Unresolved]
  case refine_2 => simp [Error.Unresolved]
  case refine_3 =>
    have hw := ObjectFile.wellFormed_of_parse hp
    exact (Assembly.build_resolved c.options hw).imp (fun _ _ _ _ => trivial) fun _ _ he => he

-- What can be read is well formed, and so loading never looks for a map in vain.
theorem reads_only_wellFormed :
    (∀ file o, ObjectFile.parse file = .ok o → o.WellFormed) ∧
    ∀ (c : Collection) h data program map,
      (Edit.outcome (load data) c h).1 ≠ .error (.unresolvedReference program map) := by
  refine ⟨fun file o => ObjectFile.wellFormed_of_parse, fun c h data program map he => ?_⟩
  have hl := ends_iff_editOutcome.mp <| load_resolved (c := c) (h := h) data
  split at hl
  case h_1 ho =>
    rw [ho] at he
    cases he
  case h_2 ho =>
    rw [ho] at he
    cases he
    exact hl ⟨program, map, rfl⟩

theorem reads_only_wellFormed_of_gate :
    (∃ o, ObjectFile.parse Object.Description.gate.draft.write = .ok o ∧ o.WellFormed) ∧
    ∀ program map, (Edit.outcome (load Object.Description.gate.draft.write) {} {}).1 ≠
      .error (.unresolvedReference program map) := by
  obtain ⟨hw, hl⟩ := reads_only_wellFormed
  exact ⟨⟨_, ObjectFile.parse_gate, hw _ _ ObjectFile.parse_gate⟩, hl {} {} _⟩

end Collection

end EbpfManager
