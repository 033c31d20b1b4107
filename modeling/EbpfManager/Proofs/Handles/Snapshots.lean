import EbpfManager.Proofs.Handles.Maps
import EbpfManager.Snapshot

namespace EbpfManager

open Attempt

variable {h₀ h : Host} {rest : Multiset Holding}

section

variable {maps : Table String Map}

theorem dropMaps_holds (hh : h₀.Holds h (maps.total Map.held + rest)) :
    h₀.Holds (dropMaps maps h) rest := by
  have key (ms : List Map) (h : Host) (hh : h₀.Holds h ((ms.map Map.held).sum + rest)) :
      h₀.Holds (ms.foldl (fun h map => map.drop h) h) rest := by
    induction ms generalizing h
    case nil => simpa using hh
    case cons m ms ih => exact ih _ <| Map.drop_holds (by simpa [add_assoc] using hh)
  exact key _ h hh

-- A map that takes the place of another, which is dropped.
theorem insert_holds {map : Map} {key : String} (s : maps.Sorted)
    (hh : h₀.Holds h (map.held + (maps.total Map.held + rest))) :
    h₀.Holds (((maps.get? key).map (·.drop h)).getD h)
      ((maps.insert key map).total Map.held + rest) := by
  rw [s.total_get? key] at hh
  rw [s.total_insert]
  cases hk : maps.get? key <;> rw [hk] at hh
  case none => simpa [add_assoc] using hh
  case some old =>
    refine Map.drop_holds ?_
    simpa [add_assoc, add_left_comm] using hh

end

namespace Snapshot

def held (s : Snapshot) : Multiset Holding :=
  (if s.ownsHandle then {(s.fd, .program)} else 0) + s.maps.total Map.held

theorem drop_holds {s : Snapshot} (hh : h₀.Holds h (s.held + rest)) : h₀.Holds (s.drop h) rest := by
  simp only [held] at hh
  cases ho : s.ownsHandle <;> simp only [ho, drop, if_true, if_false, Bool.false_eq_true, zero_add,
    Multiset.singleton_add, Multiset.cons_add] at hh ⊢
  case false => exact dropMaps_holds hh
  case true =>
    obtain ⟨hr, hc⟩ := hh.close
    refine dropMaps_holds ?_
    split <;> simp_all

theorem openMap_holds {id : Nat} (hh : h₀.Holds h rest) :
    Ends (openMap id) h (fun map h => h₀.Holds h ((map.map Map.held).getD 0 + rest))
      fun _ h => h₀.Holds h rest := by
  simp only [openMap, ends_bind]
  refine hh.ends_mapFdById.imp_ok ?_
  intro reply h hh
  cases reply
  case error => exact hh
  case ok fd =>
    simp only [ends_accept]
    refine (Map.infoOrRelease_holds hh).imp_ok ?_
    intro info h hh
    simp only [ends_ite, ends_bind, ends_note, ends_pure]
    refine ⟨fun _ => ?_, fun _ => ?_⟩
    case refine_1 =>
      refine (Map.release_holds <| Host.holds_note.mpr hh).imp_ok ?_
      exact fun _ _ hh => by simpa using hh
    case refine_2 => exact Map.ofInfo_holds hh

theorem gather_holds {ids : List Nat} {maps : Table String Map} (s : maps.Sorted)
    (hh : h₀.Holds h (maps.total Map.held + rest)) :
    Ends (gather ids maps) h (fun maps h => maps.Sorted ∧ h₀.Holds h (maps.total Map.held + rest))
      fun _ h => h₀.Holds h rest := by
  induction ids generalizing maps h
  case nil => exact ⟨s, hh⟩
  case cons id ids ih =>
    simp only [gather, ends_bind, ends_orElseClean]
    refine (openMap_holds hh).imp ?_ fun _ _ => dropMaps_holds
    intro map h hh
    cases map
    case none => exact ih s (by simpa using hh)
    case some map =>
      simp only [ends_bind, ends_modify]
      exact ih (s.insert ..) (insert_holds s hh)

theorem build_holds {fd : Fd} {ownsHandle : Bool} (hh : h₀.Holds h rest) :
    Ends (build fd ownsHandle) h
      (fun s h => s.maps.Sorted ∧ s.fd = fd ∧ s.ownsHandle = ownsHandle ∧
        h₀.Holds h (s.maps.total Map.held + rest))
      fun _ h => h₀.Holds h rest := by
  simp only [build, ends_bind]
  refine (hh.ends_ask (r := .programInfo fd) (fun _ h => h.elim) (fun _ h => by cases h) rfl).imp_ok ?_
  intro reply h hh
  cases reply
  case error => exact hh
  case ok info =>
    simp only [ends_accept]
    refine (gather_holds Table.sorted_empty (by simpa using hh)).imp_ok ?_
    rintro maps h ⟨s, hh⟩
    exact ⟨s, rfl, rfl, hh⟩

theorem ofFd_holds {fd : Fd} (hh : h₀.Holds h rest) :
    Ends (ofFd fd) h (fun s h => s.maps.Sorted ∧ h₀.Holds h (s.held + rest))
      fun _ h => h₀.Holds h rest := by
  refine (build_holds hh).imp_ok ?_
  rintro s h ⟨hs, _, ho, hh⟩
  exact ⟨hs, by simpa [held, ho] using hh⟩

theorem ofId_holds {id : Nat} (hh : h₀.Holds h rest) :
    Ends (ofId id) h (fun s h => s.maps.Sorted ∧ h₀.Holds h (s.held + rest))
      fun _ h => h₀.Holds h rest := by
  simp only [ofId, ends_bind]
  refine hh.ends_programFdById.imp_ok ?_
  intro reply h hh
  cases reply
  case error => exact hh
  case ok fd =>
    simp only [ends_accept, ends_orElseClean]
    have hh : h₀.Holds h ((fd, .program) ::ₘ rest) := hh
    refine (build_holds hh).imp ?_ ?_
    case refine_1 =>
      rintro s h ⟨hs, hf, ho, hh⟩
      exact ⟨hs, by simpa [held, ho, hf] using hh⟩
    case refine_2 =>
      intro _ h hh
      exact hh.close.right

end Snapshot

end EbpfManager
