import EbpfManager.Collection
import EbpfManager.Proofs.Endings
import EbpfManager.Proofs.Names

namespace EbpfManager

variable {h : Host}

namespace Assembly

variable {options : Options} {a : Assembly}

-- The map that goes by the name is given up for the new one.
theorem ends_addMap {d : MapDefinition} {ok : Unit → Assembly × Host → Prop}
    {fail : Error → Assembly × Host → Prop} :
    Ends (addMap options d) (a, h) ok fail ↔ Ends Map.create (declare options d, h)
      (fun _ s => ok () (
        ⟨a.maps.insert d.name s.1,
          if s.1.pinPath.isSome ∧ ¬(declare options d).pinPath.any h.machine.files.exists? then
            a.pinned ++ [d.name]
          else a.pinned⟩,
        ((a.maps.get? d.name).map (·.drop s.2)).getD s.2))
      fun e s => fail e (a, s.1.drop s.2) := by
  refine .trans ?_ ends_iff_editOutcome.symm
  unfold Ends addMap
  dsimp only
  rcases Edit.outcome Map.create (declare options d) h with ⟨result, s⟩
  cases result <;> rfl

-- A program that was made of a definition, linked to the maps, and waits to be loaded.
structure Linked (maps : Table String Map) (d : ProgramDefinition) (p : Program) : Prop where
  name        : p.name = d.name
  kind        : p.kind = d.kind
  sectionName : p.sectionName = d.sectionName
  license     : p.license = d.license
  code        : d.relocate maps = .ok p.code
  handle      : p.handle = .unset
  attachment  : p.attachment = none

theorem programs_collects {version : UInt32} {maps : Table String Map} {ds : List ProgramDefinition}
    {t : Table String Program} (h : programs options version maps ds = .ok t) :
    t.Collects ProgramDefinition.name (Linked maps) ds := by
  refine of_foldlM_eq_ok (motive := fun done t => t.Collects ProgramDefinition.name (Linked maps) done)
    ?_ Table.collects_empty h
  intro done d t t' c h
  simp only [program, bind_eq_ok, pure_eq_ok] at h
  obtain ⟨p, ⟨code, hcode, hp⟩, he⟩ := h
  subst hp
  exact he ▸ c.concat ⟨rfl, rfl, rfl, rfl, hcode, rfl, rfl⟩

-- The maps come first, and the programs are linked to all of them.
theorem ends_build {o : ObjectFile} {made : Assembly × Host → Prop}
    {ok : Table String Program → Assembly × Host → Prop} {fail : Error → Assembly × Host → Prop}
    (hm : Ends (addMaps options o.maps) (a, h) (fun _ => made) fail)
    (linked : ∀ s t, made s → programs options (o.kernelVersion.getD options.kernelVersion) s.1.maps
      o.programs = .ok t → ok t s)
    (failed : ∀ s e, made s → programs options (o.kernelVersion.getD options.kernelVersion) s.1.maps
      o.programs = .error e → fail e s) :
    Ends (build options o) (a, h) ok fail := by
  simp only [build, ends_bind]
  refine hm.imp_ok ?_
  rintro _ ⟨a, h⟩ hs
  simp only [ends_object, ends_lift, ends_except]
  split
  case h_1 t ht => exact linked _ t hs ht
  case h_2 e he => exact failed _ e hs he

end Assembly

namespace Collection

-- Either nothing is made, or what was made is kept, or it is undone.
theorem ends_load {c : Collection} {data : Bytes} {ok : Unit → Collection × Host → Prop}
    {fail : Error → Collection × Host → Prop}
    (again : c.loaded = true → fail .objectAlreadyLoaded (c, h))
    (unread : ∀ e, c.loaded = false → ObjectFile.parse data = .error e → fail (.format e) (c, h))
    (read : ∀ o, c.loaded = false → ObjectFile.parse data = .ok o →
      Ends (Assembly.build c.options o) ({}, h)
        (fun programs s => ∀ text,
          ok () ({ c with maps := s.1.maps, programs, loaded := true }, s.2.note .debug text))
        fun e s => fail e (c, s.1.undo s.2)) :
    Ends (load data) (c, h) ok fail := by
  unfold Ends load
  dsimp only
  cases hl : c.loaded
  case true => exact again hl
  case false =>
    cases hp : ObjectFile.parse data
    case error e => exact unread e hl hp
    case ok o =>
      have hb := ends_iff_editOutcome.mp (read o hl hp)
      simp only [Bool.false_eq_true, if_false]
      split at hb
      case h_1 hb' =>
        rw [hb']
        exact hb _
      case h_2 hb' =>
        rw [hb']
        exact hb

end Collection

end EbpfManager
