import EbpfManager.Proofs.Kernel.Pins
import EbpfManager.Proofs.Lifecycle.Maps
import EbpfManager.Proofs.Loading.Pins

namespace EbpfManager

open Attempt Relation

theorem Host.Leads.pins {h h' : Host} (l : h.Leads Request.Plain h') (hf : h.faults = []) :
    h'.machine.pins = h.machine.pins := by
  refine l.keep (k := fun m => m.pins = h.machine.pins) hf (fun m r hr he => ?_) (fun _ _ he => he) rfl
  refine ((m.frame r).pins fun hc => ?_).trans he
  obtain ⟨fd, path, rfl⟩ := Request.pins_of_call hc
  exact hr.elim

namespace Map

variable {m m' : Map} {h h' : Host} {fd : Fd} {id : Nat} {path : Path}

-- What the kernel takes. A map of maps can be made if one like those that it is to hold can be made first.
def Creatable (m : Map) : Prop :=
  Machine.shapeAllowed m.shape ∧ (m.kind.isMapOfMaps →
    ∃ shape, m.inner = some shape ∧ Machine.shapeAllowed shape ∧ ¬shape.kind.isMapOfMaps)

theorem perform_mapCreate {a : MapAttributes} (hf : h.faults = []) :
    (h.perform (.mapCreate a)).1 = (h.machine.settle (h.machine.mapCreate a)).1 ∧
      (h.perform (.mapCreate a)).2.machine = (h.machine.settle (h.machine.mapCreate a)).2 := by
  rw [Host.perform_of_faults_eq_nil _ hf]
  exact ⟨rfl, rfl⟩

theorem createTemplate_ends (hf : h.faults = []) :
    Ends m.createTemplate h
      (fun template h' => h'.faults = [] ∧ (m.kind.isMapOfMaps →
        (∃ shape, m.inner = some shape ∧ Machine.shapeAllowed shape ∧ ¬shape.kind.isMapOfMaps) ∧
          ∃ id, template.bind h'.machine.handles.get? = some (.map id)))
      fun _ _ => ¬m.Creatable := by
  simp only [createTemplate, ends_ite, ends_pure]
  refine ⟨fun hk => ?_, fun hk => ⟨hf, fun hk' => absurd hk' hk⟩⟩
  cases hi : m.inner
  case none =>
    simp only [ends_throw]
    exact fun c => by simpa [hi] using c.right hk
  case some shape =>
    let a : MapAttributes := ⟨m.name ++ "_inner", shape, none⟩
    obtain ⟨hr, hm⟩ := perform_mapCreate (a := a) hf
    simp only [ends_bind, ends_pure]
    rw [ends_perform, ends_accept, hr]
    have ok : (h.machine.mapCreate a).isOk ↔ Machine.shapeAllowed shape ∧ ¬shape.kind.isMapOfMaps :=
      Machine.mapCreate_isOk.trans (by simp [a])
    cases hx : h.machine.mapCreate a
    case error cause =>
      rintro ⟨_, c⟩
      obtain ⟨shape', hi', hs⟩ := c hk
      cases hi.symm.trans hi'
      simpa [hx, Except.isOk, Except.toBool] using ok.mpr hs
    case ok r =>
      obtain ⟨fd, machine⟩ := r
      refine ⟨Host.perform_of_faults_eq_nil _ hf ▸ hf,
        fun _ => ⟨⟨shape, rfl, ok.mp (by rw [hx]; rfl)⟩, ?_⟩⟩
      obtain ⟨_, ho⟩ := Machine.mapCreate_eq_ok hx
      rw [hm, hx]
      cases ho
      exact ⟨_, Machine.openHandle_get?⟩

-- The kernel takes a map or it does not, whatever else there is.
theorem createNew_ends (hf : h.faults = []) :
    Ends createNew (m, h) (fun _ s => m.Creatable ∧ ∃ fd, s.1 = { m with handle := .live fd })
      fun _ s => ¬m.Creatable ∧ s.1 = m := by
  simp only [createNew, ends_bind, ends_object, ends_lift]
  refine (createTemplate_ends hf).imp ?_ fun _ _ hc => ⟨hc, trivial⟩
  rintro template h₁ ⟨hf₁, ht⟩
  let a : MapAttributes := ⟨m.name, m.shape, template⟩
  have ok : (h₁.machine.mapCreate a).isOk ↔ m.Creatable := by
    refine Machine.mapCreate_isOk.trans (and_congr_right fun _ => ?_)
    exact ⟨fun _ hk => (ht hk).left, fun _ hk => (ht hk).right⟩
  rw [ends_perform, (perform_mapCreate hf₁).left]
  refine releaseTemplate_ends fun h₂ => ?_
  simp only [ends_accept]
  cases hx : h₁.machine.mapCreate a
  case error =>
    exact ⟨fun c => by simpa [hx, Except.isOk, Except.toBool] using ok.mpr c, trivial⟩
  case ok r =>
    exact ⟨ok.mp (by rw [hx]; rfl), r.1, rfl⟩

-- A new map is opened, or nothing is.
theorem createNew_gains (hu : m.handle = .unset) (hf : h.faults = []) (c : h.machine.Consistent) :
    Ends createNew (m, h)
      (fun _ s => m.Creatable ∧ s.2.faults = [] ∧ s.2.machine.files = h.machine.files ∧
        s.2.machine.pins = h.machine.pins ∧
        ∃ fd id, s.1 = { m with handle := .live fd } ∧ h.machine.Gains s.2.machine fd id)
      fun _ s => ¬m.Creatable ∧ s.1 = m ∧ h.machine.Spared s.2.machine := by
  have hh := Host.holds_refl c hf
  have w := (createNew_ends (m := m) hf).and <| (createNew_owns hu hh).and <|
    (createNew_filesAre (m, h) rfl).and (createNew_plain.ends (m, h))
  refine w.imp ?_ ?_
  case refine_1 =>
    rintro _ ⟨m', h'⟩ ⟨⟨hc, fd, he⟩, hh', hfiles, l⟩
    cases he
    have b : h.machine.Becomes h'.machine ((fd, .map) ::ₘ h.machine.held) := by
      simpa [held] using hh'.becomes
    obtain ⟨hn, object, hk, he⟩ := b.handles_insert c
    refine ⟨hc, hh'.faultless, hfiles, l.pins hf, fd, ?_⟩
    cases object
    case map id           => exact ⟨id, rfl, hn, he⟩
    case program | link   => cases hk
  case refine_2 =>
    rintro _ ⟨m', h'⟩ ⟨⟨hc, he⟩, hh', hfiles, l⟩
    obtain rfl : m' = m := he
    have hh' : h.Holds h' h.machine.held := by simpa [Host.Owns, held, hu] using hh'
    exact ⟨hc, rfl, hh'.handles_eq c rfl, hfiles, l.pins hf⟩

theorem pin_ends (path : Path) (hf : h.faults = []) (hm : m.handle = .live fd)
    (ho : h.machine.handles.get? fd = some (.map id)) :
    Ends (pin path) (m, h)
      (fun _ s => s.1 = { m with pinPath := some path } ∧ s.2.machine.handles = h.machine.handles ∧
        (∃ files, h.machine.files.create path = .ok files) ∧ s.2.machine.Pinned path (.map id))
      fun e s => ∃ cause, h.machine.files.create path = .error cause ∧ e = .syscall .objectPin cause ∧ s.1 = m ∧
        s.2.machine = h.machine := by
  simp only [pin, ends_bind, ends_object, ends_liftExcept, liveFd, hm, ends_lift, ends_change, ends_debug]
  rw [ends_perform, ends_accept, Host.perform_of_faults_eq_nil _ hf]
  simp only [Machine.answer, Machine.objectPin_eq ho]
  cases hc : h.machine.files.create path
  case error cause => exact ⟨cause, rfl, rfl, trivial, rfl⟩
  case ok files    => exact ⟨trivial, rfl, ⟨files, rfl⟩, Machine.pinned_insert hc⟩

section

variable {machine : Machine} {object : KernelObject} {fail : Error → Host → Prop}

theorem objectGet_ends (hf : h.faults = []) :
    Ends (perform (.objectGet path)) h
      (fun reply h' => h'.faults = [] ∧
        match reply with
        | .ok fd   => ∃ object, h.machine.Pinned path object ∧ fd = h.machine.nextFd ∧
            h'.machine = (h.machine.openHandle object).2
        | .error _ => (∀ object, ¬h.machine.Pinned path object) ∧ h'.machine = h.machine) fail := by
  rw [ends_perform, Host.perform_of_faults_eq_nil _ hf]
  refine ⟨hf, ?_⟩
  simp only [Machine.answer]
  cases hx : h.machine.objectGet path
  case error =>
    refine ⟨fun object hp => ?_, rfl⟩
    cases hx.symm.trans hp
  case ok r =>
    obtain ⟨fd, machine⟩ := r
    obtain ⟨object, hp, ho⟩ := Machine.pinned_of_objectGet hx
    cases ho
    exact ⟨object, hp, rfl, rfl⟩

-- A handle that has just been opened is given up again.
theorem release_fresh (hf : h.faults = []) (hm : h.machine = (machine.openHandle object).2) (c : machine.Consistent) :
    Ends (release machine.nextFd) h (fun _ h' => h'.machine = { machine with nextFd := machine.nextFd + 1 }) fail := by
  simp only [release, ends_bind, ends_pure]
  rw [ends_perform, Host.perform_of_faults_eq_nil _ hf, hm]
  simp only [Machine.answer, c.close_openHandle]
  rfl

theorem infoOrRelease_fresh {wrap : CallError → Error} (hf : h.faults = [])
    (hm : h.machine = (machine.openHandle object).2) (c : machine.Consistent) (ho : machine.Has object) :
    Ends (infoOrRelease wrap machine.nextFd) h
      (fun info h' => h'.faults = [] ∧ h'.machine = h.machine ∧
        ∃ id map, object = .map id ∧ machine.maps.get? id = some map ∧ map.info = info)
      fun _ h' => (∀ id, object ≠ .map id) ∧ h'.machine = { machine with nextFd := machine.nextFd + 1 } := by
  have hg : h.machine.handles.get? machine.nextFd = some object := hm ▸ Machine.openHandle_get?
  have w : h.Still (h.perform (.mapInfo machine.nextFd)).2 := (Host.Still.refl hf).perform rfl
  have hr : (h.perform (.mapInfo machine.nextFd)).1 = (·.2.info) <$> h.machine.mapAt machine.nextFd := by
    rw [Host.perform_of_faults_eq_nil _ hf]
    rfl
  simp only [infoOrRelease, ends_bind]
  rw [ends_perform, hr]
  cases object
  case map id =>
    obtain ⟨map, hi⟩ := ho
    have hi' : h.machine.maps.get? id = some map := hm ▸ hi
    rw [Machine.mapAt_eq hg hi']
    exact ⟨w.faultless, w.machine, id, map, rfl, hi, rfl⟩
  case program | link =>
    have ha : h.machine.mapAt machine.nextFd = .error (.errno Errno.invalid) := by
      simp [Machine.mapAt, Machine.objectAt, hg, Machine.fails, bind, Except.bind]
    simp only [ha, Functor.map, Except.map, ends_bind, ends_throw]
    refine (release_fresh w.faultless (w.machine.trans hm) c).imp_ok fun _ _ he => ⟨?_, he⟩
    rintro _ ⟨⟩

-- What is pinned there is taken over if it is the map declared. Otherwise the number of a handle is all that
-- is used up.
theorem openPinned_ends (path : Path) (hf : h.faults = []) (c : h.machine.Consistent) :
    Ends (openPinned path) (m, h)
      (fun _ s => ∃ id map, h.machine.Pinned path (.map id) ∧ h.machine.maps.get? id = some map ∧
        m.Agrees map.info ∧
        s.1 = { m with handle := .live h.machine.nextFd } ∧ s.2.machine = (h.machine.openHandle (.map id)).2)
      fun e s => s.1 = m ∧ (∃ nextFd, s.2.machine = { h.machine with nextFd }) ∧
        ∀ id map, h.machine.Pinned path (.map id) → h.machine.maps.get? id = some map →
          ¬m.Agrees map.info ∧ e = .kernelRejected .objectGet m.name (.pinMismatch path m.name) := by
  simp only [openPinned, ends_bind, ends_object, ends_lift]
  refine (objectGet_ends hf).imp_ok ?_
  rintro reply h₁ ⟨hf₁, hr⟩
  cases reply
  case error => exact ⟨trivial, ⟨_, hr.right⟩, fun id _ hp _ => absurd hp (hr.left _)⟩
  case ok fd =>
    obtain ⟨object, hp, rfl, hm₁⟩ := hr
    have ho : h.machine.Has object := c.pin (Machine.pinned_iff.mp hp).right
    simp only [ends_accept]
    refine (infoOrRelease_fresh hf₁ hm₁ c ho).imp ?_ ?_
    case refine_2 =>
      rintro e h₂ ⟨hn, hm₂⟩
      exact ⟨trivial, ⟨_, hm₂⟩, fun id _ hp' _ => absurd (hp.unique hp') (hn id)⟩
    case refine_1 =>
      rintro info h₂ ⟨hf₂, hm₂, id, map, rfl, hi, rfl⟩
      have hm₂ := hm₂.trans hm₁
      simp only [ends_ite, ends_bind, ends_change, ends_lift, ends_debug, ends_throw]
      refine ⟨fun ha => ⟨id, map, hp, hi, ha, trivial, hm₂⟩, fun ha => ?_⟩
      refine (release_fresh hf₂ hm₂ c).imp_ok fun _ _ he =>
        ⟨trivial, ⟨_, he⟩, fun id' map' hp' hi' => ⟨?_, trivial⟩⟩
      cases hp.unique hp'
      exact Option.some.inj (hi.symm.trans hi') ▸ ha

end

theorem countCpus_ends (hf : h.faults = []) : Ends m.countCpus h (fun _ h' => h.Still h') fun _ _ => False := by
  simp only [countCpus, ends_ite, ends_bind, ends_pure]
  refine ⟨fun _ => ?_, fun _ => .refl hf⟩
  rw [ends_perform, ends_accept, Host.perform_of_faults_eq_nil _ hf]
  exact ⟨hf, rfl⟩

-- A map that the kernel takes, but cannot pin.
structure Strands (m : Map) (h : Host) (path : Path) (cause : CallError) : Prop where
  pinPath   : m.pinPath = some path
  absent    : ¬h.machine.files.exists? path
  refused   : h.machine.files.create path = .error cause
  creatable : m.Creatable

-- How creating a map can end. Nothing is at its pin path, or what is there is taken over, or it is not the
-- map declared. A new map may be refused by the kernel, or turn out in the end not to be one that can be pinned.
inductive Creates (m : Map) (h : Host) : Except Error Unit → Map → Host → Prop
  | made {cpus : Nat} {fd : Fd} {id : Nat} {h' : Host} :
      m.Creatable →
      (∀ path, m.pinPath = some path → ¬h.machine.files.exists? path ∧
        ∃ files, h.machine.files.create path = .ok files) →
      (∀ path, m.pinPath = some path → h'.machine.Pinned path (.map id)) →
      h.machine.Gains h'.machine fd id → Creates m h (.ok ()) { m with handle := .live fd, cpus } h'
  | reused {cpus : Nat} {path : Path} {id : Nat} {map : KernelMap} {h' : Host} :
      m.pinPath = some path → h.machine.Pinned path (.map id) → h.machine.maps.get? id = some map →
      m.Agrees map.info →
      h'.machine = (h.machine.openHandle (.map id)).2 →
      Creates m h (.ok ()) { m with handle := .live h.machine.nextFd, cpus } h'
  | taken {cpus : Nat} {path : Path} {e : Error} {nextFd : Fd} {h' : Host} :
      m.pinPath = some path → h.machine.files.exists? path →
      (∀ id map, h.machine.Pinned path (.map id) → h.machine.maps.get? id = some map →
        ¬m.Agrees map.info ∧ e = .kernelRejected .objectGet m.name (.pinMismatch path m.name)) →
      h'.machine = { h.machine with nextFd } → Creates m h (.error e) { m with cpus } h'
  | refused {cpus : Nat} {e : Error} {h' : Host} :
      (∀ path, m.pinPath = some path → ¬h.machine.files.exists? path) → ¬m.Creatable →
      h.machine.Spared h'.machine → Creates m h (.error e) { m with cpus } h'
  | stranded {cpus : Nat} {path : Path} {cause : CallError} {fd : Fd} {id : Nat} {h' : Host} :
      m.Strands h path cause → h'.machine.files = h.machine.files → h'.machine.pins = h.machine.pins →
      h.machine.Gains h'.machine fd id →
      Creates m h (.error (.syscall .objectPin cause)) { m with handle := .live fd, cpus } h'

theorem create_creates (hu : m.handle = .unset) (hf : h.faults = []) (c : h.machine.Consistent) :
    Ends create (m, h) (fun _ s => m.Creates h (.ok ()) s.1 s.2) fun e s => m.Creates h (.error e) s.1 s.2 := by
  simp only [create, ends_bind, ends_object]
  rw [hu]
  simp only [ends_bind, ends_lift, ends_change]
  refine (countCpus_ends hf).imp ?_ fun _ _ => False.elim
  intro cpus h₁ w
  have c₁ : h₁.machine.Consistent := w.machine ▸ c
  have new := createNew_gains (m := { m with cpus }) hu w.faultless c₁
  rw [w.machine] at new
  split
  case h_1 hp =>
    have hp : m.pinPath = none := hp
    refine new.imp ?_ ?_
    case refine_1 =>
      rintro _ ⟨m', h'⟩ ⟨hc, _, _, _, fd, id, he, g⟩
      cases he
      exact .made hc (by simp [hp]) (by simp [hp]) g
    case refine_2 =>
      rintro e ⟨m', h'⟩ ⟨hc, he, s⟩
      cases he
      exact .refused (by simp [hp]) hc s
  case h_2 path hp =>
    have hp : m.pinPath = some path := hp
    simp only [ends_bind, ends_lift, ends_get, ends_ite, w.machine]
    refine ⟨fun hx => ?_, fun hx => ?_⟩
    case refine_1 =>
      have o := openPinned_ends (m := { m with cpus }) path w.faultless c₁
      rw [w.machine] at o
      refine o.imp ?_ ?_
      case refine_1 =>
        rintro _ ⟨m', h'⟩ ⟨id, map, hp', hi, ha, he, hm⟩
        cases he
        exact .reused hp hp' hi ha hm
      case refine_2 =>
        rintro e ⟨m', h'⟩ ⟨he, ⟨nextFd, hm⟩, hn⟩
        cases he
        exact .taken hp hx hn hm
    case refine_2 =>
      have absent {path' : Path} (hp' : m.pinPath = some path') : ¬h.machine.files.exists? path' := by
        cases hp.symm.trans hp'
        exact hx
      refine new.imp ?_ ?_
      case refine_2 =>
        rintro e ⟨m', h'⟩ ⟨hc, he, s⟩
        cases he
        exact .refused (fun _ => absent) hc s
      case refine_1 =>
        rintro _ ⟨m', h'⟩ ⟨hc, hf', hfiles, hpins, fd, id, he, g⟩
        cases he
        have ho : h'.machine.handles.get? fd = some (.map id) := by rw [g.handles, Table.get?_insert, if_pos rfl]
        refine (pin_ends path hf' rfl ho).imp ?_ ?_
        case refine_1 =>
          rintro _ ⟨m'', h''⟩ ⟨he, hh, hc', hp'⟩
          have he : m'' = { m with handle := .live fd, cpus } := he.trans (by rw [← hp])
          subst he
          have hc' : ∃ files, h.machine.files.create path = .ok files := hfiles ▸ hc'
          refine .made hc (fun path' hp'' => ⟨absent hp'', ?_⟩) (fun path' hp'' => ?_)
            ⟨g.fresh, hh.trans g.handles⟩
          case refine_1 => exact Option.some.inj (hp.symm.trans hp'') ▸ hc'
          case refine_2 => exact Option.some.inj (hp.symm.trans hp'') ▸ hp'
        case refine_2 =>
          rintro e ⟨m'', h''⟩ ⟨cause, hr, rfl, he, hm⟩
          cases he
          have hm : h''.machine = h'.machine := hm
          exact .stranded ⟨hp, hx, hfiles ▸ hr, hc⟩ (hm ▸ hfiles) (hm ▸ hpins) (hm ▸ g)

theorem creates {x : Except Error Unit} (hu : m.handle = .unset) (b : h.Harbors 0)
    (he : create.outcome m h = (x, m', h')) : m.Creates h x m' h' := by
  have w := ends_iff_editOutcome.mp (create_creates hu b.faultless b.consistent)
  rw [he] at w
  cases x <;> exact w

-- What creating a map should come to: all of it, or nothing.
structure AllOrNothing (m : Map) (h : Host) : Prop where
  failed {e : Error} {m' : Map} {h' : Host} : create.outcome m h = (.error e, m', h') →
    m'.handle = .unset ∧ h.machine.Spared h'.machine
  created {m' : Map} {h' : Host} : create.outcome m h = (.ok (), m', h') →
    ∃ fd id cpus, m' = { m with handle := .live fd, cpus } ∧ h.machine.Gains h'.machine fd id ∧
      ∀ path, m.pinPath = some path → h'.machine.Pinned path (.map id)

section

variable (hu : m.handle = .unset) (b : h.Harbors 0)

include hu b

theorem create_created (he : create.outcome m h = (.ok (), m', h')) :
    ∃ fd id cpus, m' = { m with handle := .live fd, cpus } ∧ h.machine.Gains h'.machine fd id ∧
      ∀ path, m.pinPath = some path → h'.machine.Pinned path (.map id) := by
  cases creates hu b he
  case made cpus fd id _ _ hp g => exact ⟨fd, id, cpus, rfl, g, hp⟩
  case reused cpus path id _ hp hp' _ _ hm =>
    refine ⟨_, id, cpus, rfl, ⟨b.consistent.fresh, by rw [hm]; rfl⟩, fun path' h => ?_⟩
    cases hp.symm.trans h
    have hp' := Machine.pinned_iff.mp hp'
    rw [hm]
    exact Machine.pinned_iff.mpr hp'

theorem create_failed (hs : ∀ path cause, ¬m.Strands h path cause) {e : Error}
    (he : create.outcome m h = (.error e, m', h')) :
    (∃ cpus, m' = { m with cpus }) ∧ h.machine.Spared h'.machine := by
  cases creates hu b he
  case taken cpus _ _ _ _ _ hm => exact ⟨⟨cpus, rfl⟩, by rw [hm]; exact ⟨rfl, rfl, rfl⟩⟩
  case refused cpus _ _ s      => exact ⟨⟨cpus, rfl⟩, s⟩
  case stranded st _ _ _       => exact absurd st (hs _ _)

-- The ways are told apart by what there is before.
theorem create_stranded {cause : CallError} (st : m.Strands h path cause) :
    ∃ fd id cpus h',
      create.outcome m h = (.error (.syscall .objectPin cause), { m with handle := .live fd, cpus }, h') ∧
      h.machine.Gains h'.machine fd id ∧ h'.machine.files = h.machine.files := by
  rcases he : create.outcome m h with ⟨x, m', h'⟩
  cases creates hu b he
  case made hp _ _ =>
    obtain ⟨_, files, hc⟩ := hp path st.pinPath
    cases hc.symm.trans st.refused
  case reused hp hp' _ _ _ =>
    cases hp.symm.trans st.pinPath
    exact absurd (Machine.pinned_iff.mp hp').left st.absent
  case taken hp hx _ _ =>
    cases hp.symm.trans st.pinPath
    exact absurd hx st.absent
  case refused hc _ => exact absurd st.creatable hc
  case stranded cpus _ _ fd id st' hf _ g =>
    cases st'.pinPath.symm.trans st.pinPath
    cases st'.refused.symm.trans st.refused
    exact ⟨fd, id, cpus, h', rfl, g, hf⟩

theorem create_reused {map : KernelMap} (hp : m.pinPath = some path) (hp' : h.machine.Pinned path (.map id))
    (hi : h.machine.maps.get? id = some map) (ha : m.Agrees map.info) :
    ∃ cpus h', create.outcome m h = (.ok (), { m with handle := .live h.machine.nextFd, cpus }, h') ∧
      h'.machine = (h.machine.openHandle (.map id)).2 := by
  have hx : h.machine.files.exists? path := (Machine.pinned_iff.mp hp').left
  rcases he : create.outcome m h with ⟨x, m', h'⟩
  cases creates hu b he
  case made hn _ _ => exact absurd hx (hn path hp).left
  case reused cpus _ _ _ hq hq' _ _ hm =>
    cases hp.symm.trans hq
    cases hp'.unique hq'
    exact ⟨cpus, h', rfl, hm⟩
  case taken hq _ hn _ =>
    cases hp.symm.trans hq
    exact absurd ha (hn id map hp' hi).left
  case refused hn _ _    => exact absurd hx (hn path hp)
  case stranded st _ _ _ => exact absurd hx (Option.some.inj (hp.symm.trans st.pinPath) ▸ st.absent)

theorem create_leaves {map : KernelMap} (hp : m.pinPath = some path) (hp' : h.machine.Pinned path (.map id))
    (hi : h.machine.maps.get? id = some map) (ha : ¬m.Agrees map.info) :
    ∃ cpus nextFd h', create.outcome m h =
        (.error (.kernelRejected .objectGet m.name (.pinMismatch path m.name)), { m with cpus }, h') ∧
      h'.machine = { h.machine with nextFd } := by
  have hx : h.machine.files.exists? path := (Machine.pinned_iff.mp hp').left
  rcases he : create.outcome m h with ⟨x, m', h'⟩
  cases creates hu b he
  case made hn _ _ => exact absurd hx (hn path hp).left
  case reused hq hq' hi' ha' _ =>
    cases hp.symm.trans hq
    cases hp'.unique hq'
    exact absurd (Option.some.inj (hi.symm.trans hi') ▸ ha') ha
  case taken cpus _ _ nextFd hq _ hn hm =>
    cases hp.symm.trans hq
    obtain ⟨_, rfl⟩ := hn id map hp' hi
    exact ⟨cpus, nextFd, h', rfl, hm⟩
  case refused hn _ _    => exact absurd hx (hn path hp)
  case stranded st _ _ _ => exact absurd hx (Option.some.inj (hp.symm.trans st.pinPath) ▸ st.absent)

theorem allOrNothing_iff : m.AllOrNothing h ↔ ∀ path cause, ¬m.Strands h path cause := by
  constructor
  case mp =>
    intro a path cause st
    obtain ⟨fd, _, cpus, h', he, _⟩ := create_stranded hu b st
    cases (a.failed he).left
  case mpr =>
    refine fun hs => ⟨fun {e m' h'} he => ?_, fun {m' h'} => create_created hu b⟩
    obtain ⟨⟨cpus, rfl⟩, s⟩ := create_failed hu b hs he
    exact ⟨hu, s⟩

end

-- What creating a map comes to, which has not been created so far.
structure Creation (m : Map) (h : Host) : Prop where
  -- A map that can be made but not pinned is the only exception.
  allOrNothing_iff : m.AllOrNothing h ↔ ∀ path cause, ¬m.Strands h path cause
  -- A success is one in any case.
  created {m' : Map} {h' : Host} : create.outcome m h = (.ok (), m', h') →
    ∃ fd id cpus, m' = { m with handle := .live fd, cpus } ∧ h.machine.Gains h'.machine fd id ∧
      ∀ path, m.pinPath = some path → h'.machine.Pinned path (.map id)
  -- A pin of the map declared is taken over, and others are left alone. Nothing else happens to the machine.
  reused {path : Path} {id : Nat} {map : KernelMap} : m.pinPath = some path → h.machine.Pinned path (.map id) →
    h.machine.maps.get? id = some map → m.Agrees map.info →
    ∃ cpus h', create.outcome m h = (.ok (), { m with handle := .live h.machine.nextFd, cpus }, h') ∧
      h'.machine = (h.machine.openHandle (.map id)).2
  kept {path : Path} {id : Nat} {map : KernelMap} : m.pinPath = some path → h.machine.Pinned path (.map id) →
    h.machine.maps.get? id = some map → ¬m.Agrees map.info →
    ∃ cpus nextFd h', create.outcome m h =
        (.error (.kernelRejected .objectGet m.name (.pinMismatch path m.name)), { m with cpus }, h') ∧
      h'.machine = { h.machine with nextFd }
  -- A map that cannot be pinned is open all the same, and is not created again.
  stranded {path : Path} {cause : CallError} : m.Strands h path cause →
    ∃ fd id cpus m' h', create.outcome m h = (.error (.syscall .objectPin cause), m', h') ∧
      m' = { m with handle := .live fd, cpus } ∧ h.machine.Gains h'.machine fd id ∧
      h'.machine.files = h.machine.files ∧ create.outcome m' h' = (.ok (), m', h')

-- What may happen until a map is created: it is tried in vain, and others do what they like.
inductive Retries : Map × Host → Map × Host → Prop
  | failed {m m' : Map} {h h' : Host} {e : Error} : (∀ path cause, ¬m.Strands h path cause) →
      create.outcome m h = (.error e, m', h') → Retries (m, h) (m', h')
  | others {m : Map} {h h' : Host} : h.Leads (Request.Spares m.held) h' → Retries (m, h) (m, h')

theorem Retries.unset {s s' : Map × Host} (t : Retries s s') (hu : s.1.handle = .unset) (b : s.2.Harbors 0) :
    s'.1.handle = .unset ∧ s'.2.Harbors 0 := by
  cases t
  case others m h h' l =>
    have hh : m.held = 0 := by rw [held, hu, Handle.held_unset]
    exact ⟨hu, b.leads (hh ▸ l)⟩
  case failed m m' h h' e hs he =>
    obtain ⟨⟨cpus, rfl⟩, _⟩ := create_failed hu b hs he
    have hh : m.held = 0 := by rw [held, hu, Handle.held_unset]
    obtain ⟨rest, hh'⟩ := b.holds
    have w := (create_owns (m, h) (show h.Holds h (m.held + rest) from hh.symm ▸ hh')).of_editOutcome
    rw [he] at w
    have w : h.Holds h' (m.held + rest) := w
    exact ⟨hu, .of_holds (hh ▸ w)⟩

theorem retries_unset {s s' : Map × Host} (t : ReflTransGen Retries s s') (hu : s.1.handle = .unset)
    (b : s.2.Harbors 0) :
    s'.1.handle = .unset ∧ s'.2.Harbors 0 := by
  -- By induction on what happens.
  induction t
  case refl => exact ⟨hu, b⟩
  case tail _ t ih => exact t.unset ih.left ih.right

-- Creating a map is all or nothing, unless the map could be made but not pinned. Then it stays open without a pin.
theorem creation {m₀ : Map} {h₀ : Host} (hu : m₀.handle = .unset) (b : Begins m₀ h₀)
    (t : ReflTransGen Retries (m₀, h₀) (m, h)) : Creation m h := by
  obtain ⟨hu, b⟩ : m.handle = .unset ∧ h.Harbors 0 :=
    retries_unset t hu ⟨b.faultless, b.reachable.consistent, Multiset.zero_le _⟩
  refine ⟨allOrNothing_iff hu b, create_created hu b, create_reused hu b, create_leaves hu b,
    fun {path cause} st => ?_⟩
  obtain ⟨fd, id, cpus, h', he, g, hf⟩ := create_stranded hu b st
  exact ⟨fd, id, cpus, _, h', he, rfl, g, hf, Ends.editOutcome_eq_ok (by simp [create])⟩

-- A map that is to be pinned in a directory which is not there.
def lost : Map :=
  { name := "lost", kind := .hash, keySize := 4, valueSize := 4, maxEntries := 8, pinPath := some ⟨"missing/pin"⟩ }

-- A file is in the way first, and then it is not any more.
theorem creation_of_freed :
    let m : Map := { lost with pinPath := some ⟨"pin"⟩ }
    let taken : Host := { machine := { files := ⟨⟨[(⟨.working 0, ["pin"]⟩, .file [])]⟩⟩ } }
    let tried := create.outcome m taken
    let freed : Host := { tried.2.2 with machine := { tried.2.2.machine with files := .empty } }
    tried.1 = .error (.kernelRejected .objectGet "lost" (.errno Errno.notPermitted)) ∧
      (create.outcome tried.2.1 freed).1 = .ok () ∧ Creation tried.2.1 freed := by
  intro m taken tried freed
  have he : tried.1 = .error (.kernelRejected .objectGet "lost" (.errno Errno.notPermitted)) := by decide +kernel
  have hx : taken.machine.files.exists? ⟨"pin"⟩ := by decide +kernel
  have b : Begins m taken := ⟨.start _, rfl, nofun⟩
  refine ⟨he, by decide +kernel, creation rfl b ?_⟩
  refine (ReflTransGen.single (.failed (fun path cause st => ?_) (Prod.ext he rfl))).tail
    (.others (.files .empty .refl))
  exact absurd hx (Option.some.inj st.pinPath ▸ st.absent)

theorem lost_strands : lost.Strands {} ⟨"missing/pin"⟩ (.errno Errno.noEntry) where
  pinPath   := rfl
  absent    := by decide +kernel
  refused   := rfl
  creatable := ⟨by decide +kernel, by decide⟩

theorem lost_not_allOrNothing :
    ¬∀ {m : Map} {h : Host}, m.handle = .unset → Begins m h → m.AllOrNothing h := by
  intro all
  have b : Begins lost {} := ⟨.start .empty, rfl, nofun⟩
  have hb : ({} : Host).Harbors 0 := ⟨b.faultless, b.reachable.consistent, Multiset.zero_le _⟩
  exact (allOrNothing_iff rfl hb).mp (all rfl b) _ _ lost_strands

end Map

end EbpfManager
