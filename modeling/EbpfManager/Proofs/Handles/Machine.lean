import EbpfManager.Kernel.Machine
import EbpfManager.Proofs.Endings
import EbpfManager.Proofs.SortedTable

namespace EbpfManager

-- What a handle is open on, but not which one.
inductive HandleKind
  | map
  | program
  | link
  deriving DecidableEq, Repr

abbrev Holding := Fd × HandleKind

def KernelObject.handleKind : KernelObject → HandleKind
  | map _     => .map
  | program _ => .program
  | link _    => .link

namespace Machine

def Has (m : Machine) : KernelObject → Prop
  | .map id                => ∃ map, m.maps.get? id = some map
  | .program id | .link id => ∃ program, m.programs.get? id = some program

-- All open handles, each with what it is open on.
def held (m : Machine) : Multiset Holding :=
  m.handles.entries.map fun (fd, object) => (fd, object.handleKind)

-- What is true of a machine at all times.
structure Consistent (m : Machine) : Prop where
  sorted                     : m.handles.Sorted
  below {fd object}          : m.handles.get? fd = some object → fd < m.nextFd
  handle {fd object}         : m.handles.get? fd = some object → m.Has object
  pin {key object}           : m.pins.get? key = some object → m.Has object
  mapNumber {id map}         : m.maps.get? id = some map → id ≤ m.lastId
  programNumber {id program} : m.programs.get? id = some program → id ≤ m.lastId

-- `m'` is `m` after some work: numbers of handles are not used again, and what has been created
-- stays, except for the entries of maps.
structure Keeps (m m' : Machine) : Prop where
  nextFd               : m.nextFd ≤ m'.nextFd
  handle {fd object}   : fd < m.nextFd → m'.handles.get? fd = some object →
                           m.handles.get? fd = some object
  map {id map}         : m.maps.get? id = some map → ∃ map', m'.maps.get? id = some map' ∧
                           map'.kind = map.kind ∧ map'.valueLength = map.valueLength
  program {id program} : m.programs.get? id = some program → m'.programs.get? id = some program

namespace Keeps

variable {m m' m'' : Machine}

theorem refl (m : Machine) : m.Keeps m where
  nextFd     := le_refl _
  handle _ h := h
  map h      := ⟨_, h, rfl, rfl⟩
  program h  := h

theorem trans (k : m.Keeps m') (k' : m'.Keeps m'') : m.Keeps m'' where
  nextFd        := k.nextFd.trans k'.nextFd
  handle hlt h  := k.handle hlt <| k'.handle (hlt.trans_le k.nextFd) h
  program h     := k'.program (k.program h)
  map h := by
    obtain ⟨_, h', hk, hl⟩ := k.map h
    obtain ⟨_, h'', hk', hl'⟩ := k'.map h'
    exact ⟨_, h'', hk'.trans hk, hl'.trans hl⟩

theorem has {object : KernelObject} (k : m.Keeps m') (h : m.Has object) : m'.Has object := by
  cases object
  case map =>
    obtain ⟨_, h⟩ := h
    obtain ⟨map', h', _⟩ := k.map h
    exact ⟨map', h'⟩
  case program | link =>
    obtain ⟨_, h⟩ := h
    exact ⟨_, k.program h⟩

end Keeps

-- `m'` is `m` after some work, consistent, and `held` are the handles that are open now.
structure Becomes (m m' : Machine) (held : Multiset Holding) : Prop where
  consistent : m'.Consistent
  keeps      : m.Keeps m'
  held       : m'.held = held

theorem Becomes.trans {m m' m'' : Machine} {held held' : Multiset Holding}
    (b : m.Becomes m' held) (b' : m'.Becomes m'' held') : m.Becomes m'' held' :=
  ⟨b'.consistent, b.keeps.trans b'.keeps, b'.held⟩

theorem consistent_new (files : Files.Tree) : Consistent { files } := by
  constructor <;> intros
  case sorted => exact Table.sorted_empty
  all_goals simp_all

theorem held_nodup {m : Machine} (c : m.Consistent) : (m.held.map Prod.fst).Nodup := by
  have h := c.sorted.nodup_keys
  simpa [held, Table.keys, Function.comp_def] using h

theorem mem_held_iff {m : Machine} (c : m.Consistent) {fd : Fd} {kind : HandleKind} :
    (fd, kind) ∈ m.held ↔ ∃ object, m.handles.get? fd = some object ∧ object.handleKind = kind := by
  simp only [held, Multiset.mem_coe, List.mem_map]
  constructor
  case mp =>
    rintro ⟨⟨_, object⟩, hm, he⟩
    obtain ⟨rfl, rfl⟩ := Prod.mk.inj he
    exact ⟨object, c.sorted.get?_of_mem hm, rfl⟩
  case mpr =>
    rintro ⟨object, hg, hk⟩
    exact ⟨(fd, object), Table.mem_of_get? hg, by rw [← hk]⟩

-- Where the same handles are open as before, each is still open on the same object.
theorem Becomes.handles_eq {m m' : Machine} (c : m.Consistent) (b : m.Becomes m' m.held) :
    m'.handles = m.handles := by
  refine b.consistent.sorted.ext c.sorted fun fd => ?_
  have same {object} (h : m'.handles.get? fd = some object) : m.handles.get? fd = some object := by
    have hm : (fd, object.handleKind) ∈ m.held :=
      b.held ▸ (mem_held_iff b.consistent).mpr ⟨object, h, rfl⟩
    obtain ⟨_, hg, _⟩ := (mem_held_iff c).mp hm
    exact b.keeps.handle (c.below hg) h
  cases hg : m'.handles.get? fd
  case some object => exact (same hg).symm
  case none =>
    cases hg' : m.handles.get? fd
    case none => rfl
    case some object =>
      have hm : (fd, object.handleKind) ∈ m'.held :=
        b.held.symm ▸ (mem_held_iff c).mpr ⟨object, hg', rfl⟩
      obtain ⟨_, hs, _⟩ := (mem_held_iff b.consistent).mp hm
      simp [hg] at hs

section

variable {m m' : Machine} {fd : Fd}

-- A machine with the same handles.
theorem Consistent.becomes (c : m.Consistent) (k : m.Keeps m') (hh : m'.handles = m.handles)
    (hp : ∀ {key object}, m'.pins.get? key = some object → m'.Has object)
    (hm : ∀ {id map}, m'.maps.get? id = some map → id ≤ m'.lastId)
    (hg : ∀ {id program}, m'.programs.get? id = some program → id ≤ m'.lastId) :
    m.Becomes m' m.held where
  keeps := k
  held  := by rw [held, hh, held]
  consistent := {
    sorted        := hh ▸ c.sorted
    below h       := (c.below (hh ▸ h)).trans_le k.nextFd
    handle h      := k.has (c.handle (hh ▸ h))
    pin           := hp
    mapNumber     := hm
    programNumber := hg }

theorem Consistent.openHandle (c : m.Consistent) (object : KernelObject) (ho : m.Has object) :
    m.Becomes (m.openHandle object).2 ((m.nextFd, object.handleKind) ::ₘ m.held) := by
  -- All numbers in use are below the new one.
  have fresh : m.handles.get? m.nextFd = none := by
    by_contra hn
    obtain ⟨_, hs⟩ := Option.ne_none_iff_exists'.mp hn
    exact lt_irrefl _ (c.below hs)
  have keeps : m.Keeps (m.openHandle object).2 := {
    nextFd        := by simp [Machine.openHandle]
    map h         := ⟨_, h, rfl, rfl⟩
    program h     := h
    handle hlt h  := by simpa [Machine.openHandle, Table.get?_insert, hlt.ne'] using h }
  refine ⟨?_, keeps, ?_⟩
  case refine_1 =>
    -- An open handle is the new one or was open before.
    have old {fd o} (h : (m.openHandle object).2.handles.get? fd = some o) :
        (fd = m.nextFd ∧ o = object) ∨ m.handles.get? fd = some o := by
      simp only [Machine.openHandle, Table.get?_insert] at h
      split at h
      case isTrue he => exact .inl ⟨he.symm, (Option.some.inj h).symm⟩
      case isFalse => exact .inr h
    exact {
      sorted := c.sorted.insert ..
      below h := by
        cases old h
        case inl h => simp [h, Machine.openHandle]
        case inr h => exact (c.below h).trans_le keeps.nextFd
      handle h := by
        cases old h
        case inl h => exact h.right.symm ▸ keeps.has ho
        case inr h => exact keeps.has (c.handle h)
      pin h := keeps.has (c.pin h)
      mapNumber := c.mapNumber
      programNumber := c.programNumber }
  case refine_2 =>
    have h := (c.sorted.insert_perm m.nextFd object).map fun e => (e.1, e.2.handleKind)
    rw [Table.erase_of_get?_eq_none fresh] at h
    exact Multiset.coe_eq_coe.mpr h

-- A handle that is open can be closed, and then all others are open.
theorem Consistent.close (c : m.Consistent) {kind : HandleKind} {rest : Multiset Holding}
    (hh : m.held = (fd, kind) ::ₘ rest) :
    ∃ m', m.close fd = .ok ((), m') ∧ m.Becomes m' rest := by
  obtain ⟨object, hg, rfl⟩ := (mem_held_iff c).mp (hh ▸ Multiset.mem_cons_self ..)
  refine ⟨{ m with handles := m.handles.erase fd }, by simp [Machine.close, Table.contains, hg], ?_⟩
  have old {fd' o} (h : (m.handles.erase fd).get? fd' = some o) : m.handles.get? fd' = some o := by
    rw [Table.get?_erase] at h
    split at h <;> simp_all
  refine ⟨?_, ?_, ?_⟩
  case refine_1 =>
    exact {
      sorted        := c.sorted.erase fd
      below h       := c.below (old h)
      handle h      := c.handle (old h)
      pin h         := c.pin h
      mapNumber     := c.mapNumber
      programNumber := c.programNumber }
  case refine_2 =>
    exact {
      nextFd     := le_refl _
      handle _ h := old h
      map h      := ⟨_, h, rfl, rfl⟩
      program h  := h }
  case refine_3 =>
    have h := Multiset.coe_eq_coe.mpr <| (c.sorted.erase_perm hg).map fun e => (e.1, e.2.handleKind)
    exact (Multiset.cons_inj_right _).mp <| h.symm.trans hh

end

end Machine

end EbpfManager
