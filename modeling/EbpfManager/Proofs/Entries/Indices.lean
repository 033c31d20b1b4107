import EbpfManager.Proofs.Entries.History
import EbpfManager.Proofs.Entries.Keys

namespace EbpfManager

open Attempt (Asks)

-- The entry that a request names, and the handle of the map.
def Request.keyed? : Request → Option (Fd × Bytes)
  | .mapLookup fd key _ | .mapUpdate fd key _ _ | .mapDelete fd key | .mapNextKey fd (some key) _ => some (fd, key)
  | _                                                                                         => none

structure Request.Within (m : Map) (r : Request) : Prop where
  accesses : r.Accesses m
  index {fd key} : r.keyed? = some (fd, key) → Bytes.toNat key < m.maxEntries

theorem Request.Quiet.keyed? {r : Request} (hr : r.Quiet) : r.keyed? = none := by
  cases r
  case mapLookup | mapNextKey | mapUpdate | mapDelete => exact hr.elim
  all_goals rfl

theorem Request.Accesses.handle {m : Map} {r : Request} {fd : Fd} {key : Bytes} (hr : r.Accesses m)
    (he : r.keyed? = some (fd, key)) : m.handle = .live fd := by
  cases r
  case mapLookup | mapUpdate | mapDelete => cases he; exact hr
  case mapNextKey fd' key' _ => cases key' <;> cases he; exact hr
  all_goals exact hr.elim

namespace Map.Sees

variable {m : Map} {id : Nat} {map : KernelMap} {h : Host}

-- Indices are checked, and those that the kernel gives are below the number of entries.
theorem conducts_within (o : m.Sees id map h) (ha : m.kind.isArray) :
    m.Conducts h (fun key => Bytes.toNat key < m.maxEntries) (Request.Within m) where
  encoded hk :=
    o.mirrors.maxEntries ▸ (KernelMap.encodeKey_eq_ok (o.encodeKey_eq_ok hk)).right (o.mirrors.kind ▸ ha)
  yielded {key h'} l := by
    obtain ⟨map', _, _, o'⟩ := o.leads l
    refine (o'.nextKey_yields key).imp_ok fun next _ hy bytes he => ?_
    obtain ⟨value, hg⟩ := hy bytes he
    exact o'.mirrors.maxEntries ▸ o'.wellFormed.index (o'.mirrors.kind ▸ ha) hg
  lookup hm hk _ := ⟨hm, fun he => by cases he; exact hk⟩
  update hm hk _ := ⟨hm, fun he => by cases he; exact hk⟩
  delete hm hk   := ⟨hm, fun he => by cases he; exact hk⟩
  next {fd key} hm hk := by
    refine ⟨hm, fun he => ?_⟩
    cases key <;> cases he
    exact hk _ rfl

end Map.Sees

namespace Session

variable {s : Session} {id : Nat} {map : KernelMap} {c : Command}

-- That the kernel is not asked about an index that a map does not have.
def Indexes (s s' : Session) (id count : Nat) : Prop :=
  ∃ calls, s'.host.calls = s.host.calls ++ calls ∧ ∀ call ∈ calls, ∀ fd key,
    call.request.keyed? = some (fd, key) → s.host.machine.handles.get? fd = some (.map id) →
    Bytes.toNat key < count

theorem run_indexes (f : s.Faithful) (hc : c.Genuine) (hm : s.host.machine.maps.get? id = some map)
    (v : map.Verbatim) (ha : map.kind.isArray)
    (hn : ∀ place key, c = .onMap place (.nextKey (some key)) → Bytes.toNat key < map.info.maxEntries.toNat) :
    s.Indexes (s.run c).2 id map.info.maxEntries.toNat := by
  by_cases hac : c.Accesses
  case neg =>
    obtain ⟨calls, he, hq⟩ := (run_quiet hc hac).calls
    refine ⟨calls, he, fun call h fd key hk => ?_⟩
    rw [(hq call h).keyed?] at hk
    cases hk
  case pos =>
    cases c
    case onMap place command =>
      cases hp : s.map? place
      case none => exact ⟨[], by simp [run, onMap, hp], by simp⟩
      case some m =>
        simp only [Indexes, run, host_onMap hp]
        by_cases ho : s.IsOpenOn m id
        case pos =>
          obtain ⟨fd, hl, ho⟩ := isOpenOn_iff.mp ho
          have o : m.On id map s.host := ⟨f.sane, ⟨fd, hl, ho⟩, hm, ((f.map hp).mirrors hl).holds ho hm, v⟩
          have hn' : ∀ key, command = .nextKey (some key) → Bytes.toNat key < m.maxEntries :=
            fun key he => o.mirrors.maxEntries ▸ hn place key (he ▸ rfl)
          have hc := o.sees.conducts_within (o.mirrors.kind ▸ ha)
          obtain ⟨calls, he, hw⟩ := (hc.run_leads hac fun key he _ => hn' key he).calls
          exact ⟨calls, he, fun call h fd key hk _ => o.mirrors.maxEntries ▸ (hw call h).index hk⟩
        case neg =>
          obtain ⟨calls, he, hw⟩ := (command.run_accesses hac m s.host).calls
          refine ⟨calls, he, fun call h fd key hk hh => absurd (isOpenOn_iff.mpr ⟨fd, ?_, hh⟩) ho⟩
          exact (hw call h).handle hk
    all_goals exact hac.elim

end Session

end EbpfManager
