import EbpfManager.Kernel.Machine
import EbpfManager.Proofs.Results

namespace EbpfManager.Machine

variable {m m' : Machine} {fd : Fd} {id : Nat} {path : Path}

theorem objectAt_eq_ok_iff {object : KernelObject} :
    m.objectAt fd = .ok object ↔ m.handles.get? fd = some object := by
  unfold objectAt
  cases m.handles.get? fd <;> simp [fails]

theorem objectAt_eq_ok {object : KernelObject} (h : m.objectAt fd = .ok object) :
    m.handles.get? fd = some object :=
  objectAt_eq_ok_iff.mp h

theorem mapAt_eq_ok {map : KernelMap} (h : m.mapAt fd = .ok (id, map)) :
    m.handles.get? fd = some (.map id) ∧ m.maps.get? id = some map := by
  simp only [mapAt, fails, bind_eq_ok] at h
  obtain ⟨object, ho, h⟩ := h
  split at h
  case h_2 => cases h
  case h_1 =>
    split at h <;> cases h
    exact ⟨objectAt_eq_ok ho, by assumption⟩

theorem mapAt_eq {map : KernelMap} (ho : m.handles.get? fd = some (.map id)) (hm : m.maps.get? id = some map) :
    m.mapAt fd = .ok (id, map) := by
  simp [mapAt, objectAt, ho, hm, bind, Except.bind, pure, Except.pure]

theorem programAt_eq {program : ProgramInfo} (ho : m.handles.get? fd = some (.program id))
    (hp : m.programs.get? id = some program) : m.programAt fd = .ok (id, program) := by
  simp [programAt, objectAt, ho, hp, bind, Except.bind, pure, Except.pure]

theorem programAt_eq_ok {program : ProgramInfo} (h : m.programAt fd = .ok (id, program)) :
    m.handles.get? fd = some (.program id) ∧ m.programs.get? id = some program := by
  simp only [programAt, fails, bind_eq_ok] at h
  obtain ⟨object, ho, h⟩ := h
  split at h
  case h_2 => cases h
  case h_1 =>
    split at h <;> cases h
    exact ⟨objectAt_eq_ok ho, by assumption⟩

-- The machine with a map more, with a program more, and with another map in the place of one.
def addMap (m : Machine) (map : KernelMap) : Machine :=
  { m with lastId := m.lastId + 1, maps := m.maps.insert (m.lastId + 1) map }

def addProgram (m : Machine) (program : ProgramInfo) : Machine :=
  { m with lastId := m.lastId + 1, programs := m.programs.insert (m.lastId + 1) program }

def setMap (m : Machine) (id : Nat) (map : KernelMap) : Machine :=
  { m with maps := m.maps.insert id map }

-- The map that is made for attributes.
def newMap (m : Machine) (a : MapAttributes) : KernelMap where
  info := {
    name       := keptName a.name
    kindNumber := a.shape.kind.number
    id         := m.lastId + 1
    keySize    := a.shape.keySize
    valueSize  := a.shape.valueSize
    maxEntries := a.shape.maxEntries
    flags      := a.shape.flags }
  kind        := a.shape.kind
  valueLength := valueLength a.shape.kind a.shape.valueSize.toNat
  entries     := initialEntries a.shape

theorem mapCreate_eq_ok {a : MapAttributes} (h : m.mapCreate a = .ok (fd, m')) :
    shapeAllowed a.shape ∧
      (m.addMap (m.newMap a)).openHandle (.map (m.lastId + 1)) = (fd, m') := by
  simp only [mapCreate, fails] at h
  split at h <;> simp only [bind, Except.bind, pure, Except.pure, reduceCtorEq] at h
  case isFalse ha =>
    have ha : shapeAllowed a.shape := by simpa using ha
    split at h
    case isTrue =>
      split at h <;> cases h
      exact ⟨ha, rfl⟩
    case isFalse =>
      cases h
      exact ⟨ha, rfl⟩

theorem programLoad_eq_ok {a : ProgramAttributes} {log log' : Option LogBuffer}
    (h : m.programLoad a log = ((.ok fd, log'), m')) :
    ∃ program, m.verify a.code = .ok program.mapIds ∧
      (m.addProgram program).openHandle (.program (m.lastId + 1)) = (fd, m') := by
  simp only [programLoad, fails] at h
  split at h
  case isTrue => cases h
  case isFalse =>
    split at h <;> cases h
    exact ⟨_, by assumption, rfl⟩

theorem programLoad_eq_error {a : ProgramAttributes} {log log' : Option LogBuffer}
    {cause : CallError} (h : m.programLoad a log = ((.error cause, log'), m')) : m' = m := by
  simp only [programLoad, fails] at h
  split at h
  case isTrue => cases h; rfl
  case isFalse => split at h <;> cases h; rfl

theorem mapUpdate_eq_ok {key value : Bytes} {flags : UpdateFlags}
    (h : m.mapUpdate fd key value flags = .ok ((), m')) :
    ∃ id map stored, m.mapAt fd = .ok (id, map) ∧ m.storedValue map.kind value = .ok stored ∧
      key.length = map.info.keySize.toNat ∧ value.length = map.valueLength ∧
      admits map key flags = .ok () ∧
      m' = m.setMap id { map with entries := map.entries.insert key stored } := by
  simp only [mapUpdate, fails, bind_eq_ok, Prod.exists] at h
  obtain ⟨id, map, hm, stored, hs, h⟩ := h
  split at h
  case isTrue => cases h
  case isFalse hl =>
    obtain ⟨_, ha, he⟩ := bind_eq_ok.mp h
    cases he
    obtain ⟨hk, hv⟩ := not_or.mp hl
    exact ⟨id, map, stored, hm, hs, not_not.mp hk, not_not.mp hv, ha, rfl⟩

theorem mapDelete_eq_ok {key : Bytes} (h : m.mapDelete fd key = .ok ((), m')) :
    ∃ id map, m.mapAt fd = .ok (id, map) ∧ ¬map.kind.isArray ∧
      m' = m.setMap id { map with entries := map.entries.erase key } := by
  simp only [mapDelete, fails, bind_eq_ok, Prod.exists] at h
  obtain ⟨id, map, hm, h⟩ := h
  split at h
  case isTrue => cases h
  case isFalse ha =>
    split at h <;> cases h
    exact ⟨id, map, hm, ha, rfl⟩

theorem reportKind_eq_ok {number : Nat} (h : m.reportKind fd number = .ok m') :
    ∃ id map, m.mapAt fd = .ok (id, map) ∧
      m' = m.setMap id { map with info := { map.info with kindNumber := number } } := by
  simp only [reportKind, bind_eq_ok, Prod.exists] at h
  obtain ⟨id, map, hm, h⟩ := h
  cases h
  exact ⟨id, map, hm, rfl⟩

theorem objectPin_eq_ok (h : m.objectPin fd path = .ok ((), m')) :
    ∃ object files, m.objectAt fd = .ok object ∧ m.files.create path = .ok files ∧
      m' = { m with files, pins := m.pins.insert path.key object } := by
  simp only [objectPin, fails, bind_eq_ok] at h
  obtain ⟨object, ho, h⟩ := h
  split at h
  case h_1 => cases h
  case h_2 =>
    obtain ⟨files, hf, he⟩ := bind_eq_ok.mp h
    cases he
    exact ⟨object, files, ho, hf, rfl⟩

theorem objectGet_eq_ok (h : m.objectGet path = .ok (fd, m')) :
    ∃ object, m.pins.get? path.key = some object ∧ m.openHandle object = (fd, m') := by
  simp only [objectGet, fails] at h
  split at h
  case isTrue => cases h
  case isFalse =>
    split at h <;> cases h
    exact ⟨_, by assumption, rfl⟩

theorem xdpAttach_eq_ok {interface : Nat} {link : Fd}
    (h : m.xdpAttach fd interface = .ok (link, m')) :
    ∃ id program, m.programAt fd = .ok (id, program) ∧ m.openHandle (.link id) = (link, m') := by
  simp only [xdpAttach, fails, bind_eq_ok, Prod.exists] at h
  obtain ⟨id, program, hp, h⟩ := h
  split at h
  case isTrue => cases h
  case isFalse =>
    split at h <;> cases h
    exact ⟨id, program, hp, rfl⟩

theorem programFdById_eq_ok (h : m.programFdById id = .ok (fd, m')) :
    (∃ program, m.programs.get? id = some program) ∧ m.openHandle (.program id) = (fd, m') := by
  simp only [programFdById, fails] at h
  split at h <;> cases h
  exact ⟨Option.isSome_iff_exists.mp (by assumption), rfl⟩

theorem mapFdById_eq_ok (h : m.mapFdById id = .ok (fd, m')) :
    (∃ map, m.maps.get? id = some map) ∧ m.openHandle (.map id) = (fd, m') := by
  simp only [mapFdById, fails] at h
  split at h <;> cases h
  exact ⟨Option.isSome_iff_exists.mp (by assumption), rfl⟩

theorem close_eq_ok (h : m.close fd = .ok ((), m')) :
    (∃ object, m.handles.get? fd = some object) ∧ m' = { m with handles := m.handles.erase fd } := by
  simp only [close, fails] at h
  split at h <;> cases h
  exact ⟨Option.isSome_iff_exists.mp (by assumption), rfl⟩

-- A call that fails leaves the machine as it is, so that its success is all there is to look at.
theorem settle_cases {α : Type} {p : Machine → Prop} {x : Except CallError (α × Machine)} (hm : p m)
    (h : ∀ a m', x = .ok (a, m') → p m') : p (m.settle x).2 := by
  cases x
  case ok r    => exact h r.1 r.2 rfl
  case error e => exact hm

-- What a request leaves as it is, whether it succeeds or not: each part of the machine is changed by requests of
-- its own only.
structure Frame (m : Machine) (r : Request) (m' : Machine) : Prop where
  files    : r.call ≠ .objectPin → m'.files = m.files
  pins     : r.call ≠ .objectPin → m'.pins = m.pins
  programs : r.call ≠ .programLoad → m'.programs = m.programs
  maps     : r.call ≠ .mapCreate → r.call ≠ .mapUpdate → r.call ≠ .mapDelete → m'.maps = m.maps

theorem Frame.refl (m : Machine) (r : Request) : m.Frame r m where
  files _    := rfl
  pins _     := rfl
  programs _ := rfl
  maps _ _ _ := rfl

-- One case for each request that is not just a question.
theorem frame (m : Machine) (r : Request) : m.Frame r (m.answer r).2 := by
  cases r
  case mapCreate =>
    refine settle_cases (.refl m _) fun _ _ h => ?_
    cases (mapCreate_eq_ok h).right
    exact { Frame.refl m _ with maps := fun h => absurd rfl h }
  case mapUpdate =>
    refine settle_cases (.refl m _) fun _ _ h => ?_
    obtain ⟨_, _, _, _, _, _, _, _, rfl⟩ := mapUpdate_eq_ok h
    exact { Frame.refl m _ with maps := fun _ h => absurd rfl h }
  case mapDelete =>
    refine settle_cases (.refl m _) fun _ _ h => ?_
    obtain ⟨_, _, _, _, rfl⟩ := mapDelete_eq_ok h
    exact { Frame.refl m _ with maps := fun _ _ h => absurd rfl h }
  case programLoad a log =>
    rcases h : m.programLoad a log with ⟨⟨reply, log'⟩, m'⟩
    simp only [answer, h]
    cases reply
    case error => exact programLoad_eq_error h ▸ .refl m _
    case ok fd =>
      obtain ⟨_, _, ho⟩ := programLoad_eq_ok h
      cases ho
      exact { Frame.refl m _ with programs := fun h => absurd rfl h }
  case objectPin =>
    refine settle_cases (.refl m _) fun _ _ h => ?_
    obtain ⟨_, _, _, _, rfl⟩ := objectPin_eq_ok h
    exact { Frame.refl m _ with files := fun h => absurd rfl h, pins := fun h => absurd rfl h }
  case objectGet =>
    refine settle_cases (.refl m _) fun _ _ h => ?_
    obtain ⟨_, _, ho⟩ := objectGet_eq_ok h
    cases ho
    exact { Frame.refl m _ with }
  case xdpAttach =>
    refine settle_cases (.refl m _) fun _ _ h => ?_
    obtain ⟨_, _, _, ho⟩ := xdpAttach_eq_ok h
    cases ho
    exact { Frame.refl m _ with }
  case programFdById =>
    refine settle_cases (.refl m _) fun _ _ h => ?_
    cases (programFdById_eq_ok h).right
    exact { Frame.refl m _ with }
  case mapFdById =>
    refine settle_cases (.refl m _) fun _ _ h => ?_
    cases (mapFdById_eq_ok h).right
    exact { Frame.refl m _ with }
  case close =>
    refine settle_cases (.refl m _) fun _ _ h => ?_
    obtain ⟨_, rfl⟩ := close_eq_ok h
    exact { Frame.refl m _ with }
  all_goals exact .refl m _

end EbpfManager.Machine
