import EbpfManager.Proofs.Loading.Filling
import EbpfManager.Proofs.Loading.Pins

namespace EbpfManager.Assembly

open Files (Tree)

variable {options : Options} {d : MapDefinition} {a a' : Assembly} {h : Host} {t t' : Tree}
  {maps : Table String Map}

-- What making the map of a definition does.
def Adds (options : Options) (d : MapDefinition) (a a' : Assembly) (t t' : Tree) : Prop :=
  ∃ m, (declare options d).Opened m ∧ a'.maps = a.maps.insert d.name m ∧
    (a'.pinned = a.pinned ∧ t' = t ∨
      ∃ path, m.pinPath = some path ∧ a'.pinned = a.pinned ++ [d.name] ∧ t.create path = .ok t')

theorem addMap_adds :
    Ends (addMap options d) (a, h)
      (fun _ s => Adds options d a s.1 h.machine.files s.2.machine.files)
      fun e s => ¬e.Unresolved ∧ s.1 = a ∧ s.2.machine.files = h.machine.files := by
  have hu : (declare options d).handle = .unset := rfl
  refine ends_addMap.mpr <| ((Map.create_opened hu).and (Map.create_files hu)).imp ?_ ?_
  case refine_1 =>
    rintro _ ⟨m, h'⟩ ⟨(ho : (declare options d).Opened m), (hf : Tree.WithPin _ _ h'.machine.files)⟩
    have hk : (((a.maps.get? d.name).map (·.drop h')).getD h').machine.files = h'.machine.files := by
      cases a.maps.get? d.name
      case none => rfl
      case some => exact Map.drop_files
    refine ⟨m, ho, rfl, ?_⟩
    rw [hk]
    rw [← ho.pinPath] at hf ⊢
    cases hpath : m.pinPath
    case none =>
      have hf : h'.machine.files = h.machine.files := by simpa [Tree.WithPin, hpath] using hf
      simp [hf]
    case some path =>
      rw [hpath] at hf
      by_cases he : h.machine.files.exists? path
      case pos =>
        have hf : h'.machine.files = h.machine.files := by simpa [Tree.WithPin, he] using hf
        simp [he, hf]
      case neg =>
        have hf : h.machine.files.create path = .ok h'.machine.files := by
          simpa [Tree.WithPin, he] using hf
        simp [he, hf]
  case refine_2 =>
    rintro _ ⟨m, h'⟩ ⟨he, hf⟩
    exact ⟨he, rfl, Map.drop_files.trans hf⟩

-- Under the name of a definition is an open map. It need not be the one of that definition: a later
-- definition of the same name has its map there.
abbrev Covers (options : Options) (ds : List MapDefinition) (maps : Table String Map) : Prop :=
  maps.Collects MapDefinition.name (fun d m => (declare options d).Opened m) ds

theorem addMaps_covers_more (ds : List MapDefinition) {done : List MapDefinition}
    (hc : Covers options done a.maps) :
    Ends (addMaps options ds) (a, h) (fun _ s => Covers options (done ++ ds) s.1.maps)
      fun e _ => ¬e.Unresolved := by
  induction ds generalizing done a h
  case nil => simpa [addMaps] using hc
  case cons d ds ih =>
    refine ends_bind.mpr <| addMap_adds.imp ?_ fun _ _ hf => hf.left
    rintro _ ⟨a', h'⟩ ⟨m, ho, hm, _⟩
    have hc : Covers options (done ++ [d]) a'.maps := hm ▸ hc.concat ho
    exact (ih hc).imp_ok fun _ s hc => by simpa using hc

theorem addMaps_covers (ds : List MapDefinition) :
    Ends (addMaps options ds) ({}, h) (fun _ s => Covers options ds s.1.maps) fun e _ => ¬e.Unresolved := by
  have hc : Covers options [] ({} : Assembly).maps := Table.collects_empty
  exact (addMaps_covers_more ds hc).imp_ok fun _ _ hc => hc

end EbpfManager.Assembly
