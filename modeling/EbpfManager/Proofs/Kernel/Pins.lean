import EbpfManager.Proofs.Files.Growth
import EbpfManager.Proofs.Handles.Machine
import EbpfManager.Proofs.Kernel.Calls

namespace EbpfManager

namespace Machine

variable {m m' : Machine} {fd : Fd} {path : Path} {object : KernelObject} {a : MapAttributes}

-- That the kernel opens an object at a path.
def Pinned (m : Machine) (path : Path) (object : KernelObject) : Prop :=
  m.objectGet path = .ok (m.openHandle object)

theorem openHandle_get? : (m.openHandle object).2.handles.get? m.nextFd = some object := by
  rw [openHandle, Table.get?_insert, if_pos rfl]

theorem pinned_iff : m.Pinned path object ↔ m.files.exists? path ∧ m.pins.get? path.key = some object := by
  unfold Pinned objectGet fails
  cases he : m.files.exists? path
  case false => simp
  case true =>
    cases hp : m.pins.get? path.key
    case none => simp
    case some object' =>
      simp only [Bool.not_true, Bool.false_eq_true, if_false, Except.ok.injEq, true_and, Option.some.injEq]
      constructor
      case mpr => exact fun h => h ▸ rfl
      case mp =>
        intro h
        have hg : (m.openHandle object').2.handles.get? m.nextFd = some object := h ▸ openHandle_get?
        exact Option.some.inj (openHandle_get?.symm.trans hg)

theorem Pinned.unique {object' : KernelObject} (p : m.Pinned path object) (p' : m.Pinned path object') :
    object = object' :=
  Option.some.inj ((pinned_iff.mp p).right.symm.trans (pinned_iff.mp p').right)

-- What is opened at a path is pinned there.
theorem pinned_of_objectGet (h : m.objectGet path = .ok (fd, m')) :
    ∃ object, m.Pinned path object ∧ m.openHandle object = (fd, m') := by
  obtain ⟨object, _, ho⟩ := objectGet_eq_ok h
  exact ⟨object, h.trans (congrArg Except.ok ho.symm), ho⟩

theorem objectPin_eq {id : Nat} (ho : m.handles.get? fd = some (.map id)) :
    m.objectPin fd path = do
      let files ← m.files.create path
      return ((), { m with files, pins := m.pins.insert path.key (.map id) }) := by
  simp [objectPin, objectAt, ho, bind, Except.bind]

theorem pinned_insert {files : Files.Tree} (hc : m.files.create path = .ok files) :
    { m with files, pins := m.pins.insert path.key object }.Pinned path object :=
  pinned_iff.mpr ⟨Files.Tree.exists?_of_create hc, by rw [Table.get?_insert, if_pos rfl]⟩

theorem Consistent.fresh (c : m.Consistent) : m.handles.get? m.nextFd = none := by
  by_contra hn
  obtain ⟨_, hs⟩ := Option.ne_none_iff_exists'.mp hn
  exact lt_irrefl _ (c.below hs)

-- A handle that is closed at once leaves nothing but its number.
theorem Consistent.close_openHandle (c : m.Consistent) (object : KernelObject) :
    (m.openHandle object).2.close m.nextFd = .ok ((), { m with nextFd := m.nextFd + 1 }) := by
  have hc : (m.openHandle object).2.handles.contains m.nextFd := by simp [Table.contains, openHandle_get?]
  have he : (m.openHandle object).2.handles.erase m.nextFd = m.handles := by
    refine ((c.sorted.insert ..).erase _).ext c.sorted fun fd => ?_
    rw [Table.get?_erase, Table.get?_insert]
    split
    case isTrue he  => rw [← he, c.fresh]
    case isFalse => rfl
  rw [Machine.close, if_pos hc, he]
  rfl

-- One handle more, and all others as before.
theorem Becomes.handles_insert {kind : HandleKind} (c : m.Consistent) (b : m.Becomes m' ((fd, kind) ::ₘ m.held)) :
    m.handles.get? fd = none ∧ ∃ object, object.handleKind = kind ∧ m'.handles = m.handles.insert fd object := by
  obtain ⟨object, hg, hk⟩ := (mem_held_iff b.consistent).mp (b.held ▸ Multiset.mem_cons_self ..)
  obtain ⟨m'', hc, b'⟩ := b.consistent.close b.held
  obtain ⟨_, rfl⟩ := close_eq_ok hc
  have he : m'.handles.erase fd = m.handles := (b.trans b').handles_eq c
  refine ⟨by rw [← he, Table.get?_erase, if_pos rfl], object, hk, ?_⟩
  refine b.consistent.sorted.ext (c.sorted.insert ..) fun fd' => ?_
  rw [Table.get?_insert, ← he, Table.get?_erase]
  split
  case isTrue h => exact h ▸ hg
  case isFalse  => rfl

theorem mapCreate_isOk : (m.mapCreate a).isOk ↔ shapeAllowed a.shape ∧
    (a.shape.kind.isMapOfMaps → ∃ id, a.innerFd.bind m.handles.get? = some (.map id)) := by
  simp only [mapCreate, fails]
  cases hs : shapeAllowed a.shape
  case false => simp [bind, Except.bind, Except.isOk, Except.toBool]
  case true =>
    cases hk : a.shape.kind.isMapOfMaps
    case false => simp [pure, Except.pure, Except.isOk, Except.toBool]
    case true =>
      rcases a.innerFd.bind m.handles.get? with _ | _ | _ | _ <;>
        simp [bind, Except.bind, pure, Except.pure, Except.isOk, Except.toBool]

-- One handle more is open, on a map.
structure Gains (m m' : Machine) (fd : Fd) (id : Nat) : Prop where
  fresh   : m.handles.get? fd = none
  handles : m'.handles = m.handles.insert fd (.map id)

-- The same handles are open, and there are the same files and pins.
structure Spared (m m' : Machine) : Prop where
  handles : m'.handles = m.handles
  files   : m'.files = m.files
  pins    : m'.pins = m.pins

end Machine

end EbpfManager
