import EbpfManager.Proofs.Requests.Frames

namespace EbpfManager

open Attempt (Asks)

variable {p : Request → Prop} {h h' : Host} {fd : Fd}

-- What is true of the map that a handle is open on, if it is open on one.
structure Machine.Behind (machine : Machine) (fd : Fd) (p : KernelMap → Prop) : Prop where
  below : fd < machine.nextFd
  holds {id map} : machine.handles.get? fd = some (.map id) → machine.maps.get? id = some map → p map

theorem Machine.Behind.mono {machine : Machine} {p q : KernelMap → Prop} (b : machine.Behind fd p)
    (hpq : ∀ map, p map → q map) : machine.Behind fd q where
  below := b.below
  holds ho hm := hpq _ (b.holds ho hm)

-- What was true of it when the handle was opened stays true, as long as it is not about entries.
theorem Machine.Behind.leads {p : KernelMap → Prop} {q : Request → Prop} (b : h.machine.Behind fd p)
    (l : h.Leads q h') (o : h.Sane)
    (hp : ∀ map map', map'.info = map.info → map'.kind = map.kind → p map → p map') :
    h'.machine.Behind fd p where
  below := b.below.trans_le (l.keeps o).nextFd
  holds {id map} ho hm := by
    have ho := (l.keeps o).handle b.below ho
    obtain ⟨map₀, hm₀⟩ := o.consistent.handle ho
    obtain ⟨map', hm', hi, hk⟩ := l.info o hm₀
    cases hm.symm.trans hm'
    exact hp _ _ hi hk (b.holds ho hm₀)

-- What is true of whatever was made alike stays true, whatever is reported.
theorem Machine.Behind.retained {machine machine' : Machine} {p : KernelMap → Prop} (b : machine.Behind fd p)
    (r : machine.Retains machine') (c : machine.Consistent)
    (hp : ∀ map map', map'.shape = map.shape → p map → p map') : machine'.Behind fd p where
  below := b.below.trans_le r.keeps.nextFd
  holds {id map} ho hm := by
    have ho := r.keeps.handle b.below ho
    obtain ⟨map₀, hm₀⟩ := c.handle ho
    obtain ⟨map', hm', he⟩ := r.shape hm₀
    cases hm.symm.trans hm'
    exact hp _ _ he (b.holds ho hm₀)

namespace Map

-- Sizes that the kernel can be told of.
structure Sized (m : Map) : Prop where
  key     : m.keySize < UInt32.size
  value   : m.valueSize < UInt32.size
  entries : m.maxEntries < UInt32.size

structure Mirrors (m : Map) (map : KernelMap) : Prop where
  kind       : m.kind = map.kind
  keySize    : m.keySize = map.info.keySize.toNat
  valueSize  : m.valueSize = map.info.valueSize.toNat
  maxEntries : m.maxEntries = map.info.maxEntries.toNat
  cpus       : m.kind.isPerCpu → m.cpus = Machine.cpus

structure Faithful (machine : Machine) (m : Map) : Prop where
  sized : m.Sized
  mirrors {fd : Fd} : m.handle = .live fd → machine.Behind fd m.Mirrors

-- What the kernel has been told of a map: 32 bits of each size.
structure Declares (m : Map) (map : KernelMap) : Prop where
  kind       : m.kind = map.kind
  keySize    : .ofNat m.keySize = map.info.keySize
  valueSize  : .ofNat m.valueSize = map.info.valueSize
  maxEntries : .ofNat m.maxEntries = map.info.maxEntries
  cpus       : m.kind.isPerCpu → m.cpus = Machine.cpus

-- A property of what a map is declared as, which all maps have that the kernel can be told of.
structure Declared (d : Map → Prop) : Prop where
  sized {m : Map} : m.Sized → d m
  keep {m : Map} (pinPath : Option Path) (cpus : Nat) (handle : Handle) :
    d m → d { m with pinPath, cpus, handle }

structure Told (d : Map → Prop) (machine : Machine) (m : Map) : Prop where
  declared : d m
  declares {fd : Fd} : m.handle = .live fd → machine.Behind fd m.Declares

variable {m : Map} {d : Map → Prop}

theorem declared_any : Declared fun _ => True where
  sized _      := trivial
  keep _ _ _ _ := trivial

theorem declared_sized : Declared Sized where
  sized        := id
  keep _ _ _ s := ⟨s.key, s.value, s.entries⟩

theorem Mirrors.declares {map : KernelMap} (r : m.Mirrors map) : m.Declares map where
  kind       := r.kind
  keySize    := by rw [r.keySize, UInt32.ofNat_toNat]
  valueSize  := by rw [r.valueSize, UInt32.ofNat_toNat]
  maxEntries := by rw [r.maxEntries, UInt32.ofNat_toNat]
  cpus       := r.cpus

-- What the kernel has been told is all there is to a map whose sizes it can be told.
theorem Declares.mirrors {map : KernelMap} (r : m.Declares map) (s : m.Sized) : m.Mirrors map where
  kind       := r.kind
  keySize    := r.keySize ▸ (UInt32.toNat_ofNat_of_lt s.key).symm
  valueSize  := r.valueSize ▸ (UInt32.toNat_ofNat_of_lt s.value).symm
  maxEntries := r.maxEntries ▸ (UInt32.toNat_ofNat_of_lt s.entries).symm
  cpus       := r.cpus

theorem Declares.congr {map map' : KernelMap} (he : map'.shape = map.shape) (r : m.Declares map) : m.Declares map' where
  kind       := r.kind.trans (congrArg MapShape.kind he).symm
  keySize    := r.keySize.trans (congrArg MapShape.keySize he).symm
  valueSize  := r.valueSize.trans (congrArg MapShape.valueSize he).symm
  maxEntries := r.maxEntries.trans (congrArg MapShape.maxEntries he).symm
  cpus       := r.cpus

theorem Mirrors.congr {map map' : KernelMap} (hi : map'.info = map.info) (hk : map'.kind = map.kind)
    (r : m.Mirrors map) : m.Mirrors map' where
  kind       := hk ▸ r.kind
  keySize    := hi ▸ r.keySize
  valueSize  := hi ▸ r.valueSize
  maxEntries := hi ▸ r.maxEntries
  cpus       := r.cpus

theorem Faithful.told {machine : Machine} (f : m.Faithful machine) (hd : Declared d) : m.Told d machine where
  declared    := hd.sized f.sized
  declares hm := (f.mirrors hm).mono fun _ r => r.declares

theorem Told.faithful {machine : Machine} (t : m.Told d machine) (s : m.Sized) : m.Faithful machine where
  sized      := s
  mirrors hm := (t.declares hm).mono fun _ r => r.mirrors s

theorem Told.retained {machine machine' : Machine} (t : m.Told d machine) (r : machine.Retains machine')
    (c : machine.Consistent) : m.Told d machine' where
  declared    := t.declared
  declares hm := (t.declares hm).retained r c fun _ _ => Declares.congr

theorem Told.leads (t : m.Told d h.machine) (l : h.Leads p h') (o : h.Sane) : m.Told d h'.machine :=
  t.retained (l.retains o) o.consistent

-- Where a map is pinned says nothing about what it is.
theorem Told.pinned {machine : Machine} (t : m.Told d machine) (hd : Declared d) (path : Option Path) :
    Told d machine { m with pinPath := path } where
  declared    := hd.keep path m.cpus m.handle t.declared
  declares hm := (t.declares hm).mono fun _ r => ⟨r.kind, r.keySize, r.valueSize, r.maxEntries, r.cpus⟩

theorem told_of_not_live {machine : Machine} (hd : d m) (hn : ∀ fd, m.handle ≠ .live fd) :
    m.Told d machine where
  declared    := hd
  declares hm := absurd hm (hn _)

theorem Faithful.retained {machine machine' : Machine} (f : m.Faithful machine) (r : machine.Retains machine')
    (c : machine.Consistent) : m.Faithful machine' :=
  ((f.told declared_sized).retained r c).faithful f.sized

theorem Faithful.leads (f : m.Faithful h.machine) (l : h.Leads p h') (o : h.Sane) : m.Faithful h'.machine :=
  f.retained (l.retains o) o.consistent

theorem Faithful.pinned {machine : Machine} (f : m.Faithful machine) (path : Option Path) :
    Faithful machine { m with pinPath := path } :=
  ((f.told declared_sized).pinned declared_sized path).faithful ⟨f.sized.key, f.sized.value, f.sized.entries⟩

end Map

namespace Attempt

variable {α β : Type} {work : Attempt α} {next : α → Attempt β} {q : α → Host → Prop}
  {q' : β → Host → Prop}

-- What work comes to, if it comes to something.
def Yields (work : Attempt α) (h : Host) (q : α → Host → Prop) : Prop :=
  Ends work h q fun _ _ => True

namespace Yields

theorem bind (w : Asks p work) (y : Yields work h q)
    (n : ∀ a h', h.Leads p h' → q a h' → Yields (next a) h' q') : Yields (work >>= next) h q' :=
  ends_bind.mpr <| ((w.ends h).and y).imp (fun a h' ⟨l, ha⟩ => n a h' l ha) fun _ _ _ => trivial

-- A call, and what is done with its answer.
theorem perform {r : Request} {next : r.Reply → Attempt β} (o : h.Sane)
    (n : Yields (next (h.machine.answer r).1) (h.perform r).2 q') :
    Yields (Attempt.perform r >>= next) h q' :=
  ends_bind.mpr <| ends_perform.mpr <| (o.reply r).symm ▸ n

theorem accept {ε : Type} {wrap : ε → Error} {x : Except ε α} (hx : ∀ a, x = .ok a → q a h) :
    Yields (Attempt.accept wrap x) h q := by
  cases x
  case ok a    => exact hx a rfl
  case error e => exact trivial

-- Work of which it does not matter what it comes to.
theorem after (w : Asks p work) (n : ∀ a h', h.Leads p h' → Yields (next a) h' q') :
    Yields (work >>= next) h q' :=
  ends_bind.mpr <| (w.ends h).imp n fun _ _ _ => trivial

theorem throw (w : Asks p work) (e : Error) {q : β → Host → Prop} :
    Yields (work >>= fun _ => throw e) h q :=
  after w fun _ _ _ => trivial

end Yields

end Attempt

namespace Machine

variable {m m' : Machine} {object : KernelObject}

theorem lt_nextFd_openHandle (h : m.openHandle object = (fd, m')) : fd < m'.nextFd := by
  cases h
  exact Int.lt_succ _

theorem behind_of_mapAt {map : KernelMap} {id : Nat} (hb : fd < m.nextFd) (hm : m.mapAt fd = .ok (id, map)) :
    m.Behind fd (·.info = map.info) := by
  refine ⟨hb, fun ho hg => ?_⟩
  obtain ⟨ho', hg'⟩ := mapAt_eq_ok hm
  cases ho.symm.trans ho'
  cases hg.symm.trans hg'
  rfl

theorem eq_ok_of_settle {α : Type} {x : Except CallError (α × Machine)} {a : α}
    (h : (m.settle x).1 = .ok a) : x = .ok (a, (m.settle x).2) := by
  cases x
  case ok p    => cases h; rfl
  case error e => cases h

theorem behind_of_mapCreate {a : MapAttributes} (h : m.mapCreate a = .ok (fd, m')) :
    m'.Behind fd (· = m.newMap a) := by
  obtain ⟨_, ho⟩ := mapCreate_eq_ok h
  cases ho
  refine ⟨Int.lt_succ _, fun ho hm => ?_⟩
  simp only [addMap, Table.get?_insert, if_true] at ho hm
  cases ho
  simpa using hm.symm

end Machine

namespace Map

open Attempt (Yields)
open Request (Quiet)

theorem countCpus_yields (m : Map) (o : h.Sane) :
    Yields m.countCpus h fun cpus _ => m.kind.isPerCpu → cpus = Machine.cpus := by
  unfold countCpus
  split
  case isTrue     => exact .perform o fun _ => rfl
  case isFalse hn => exact fun hp => absurd hp hn

theorem infoOrRelease_yields (wrap : CallError → Error) (o : h.Sane) (hb : fd < h.machine.nextFd) :
    Yields (infoOrRelease wrap fd) h fun info h' => h'.machine.Behind fd (·.info = info) := by
  refine .perform o ?_
  have hm := o.machine (.mapInfo fd)
  cases ha : h.machine.mapAt fd
  case ok p =>
    have b : (h.perform (.mapInfo fd)).2.machine.Behind fd (·.info = p.2.info) := by
      rw [hm]
      exact Machine.behind_of_mapAt hb ha
    simp only [Machine.answer, ha]
    exact b
  case error =>
    simp only [Machine.answer, ha]
    exact .throw (release_asks fd) _

-- The owner of a handle that is made by what the kernel reports.
theorem ofInfo_yields {info : MapInfo} (o : h.Sane) (b : h.machine.Behind fd (·.info = info)) :
    Yields (ofInfo fd info) h fun m h' => m.Faithful h'.machine := by
  unfold ofInfo
  split
  case h_1 => exact .throw (release_asks fd) _
  case h_2 kind hk =>
    refine .bind (.orElseClean (countCpus_asks _) (drop_leads _))
      (ends_orElseClean.mpr <| countCpus_yields _ o) fun cpus h' l hc => ?_
    have b := b.leads l o fun _ _ hi _ h => hi.trans h
    refine ⟨⟨info.keySize.toNat_lt, info.valueSize.toNat_lt, info.maxEntries.toNat_lt⟩, fun hm => ?_⟩
    cases hm
    refine ⟨b.below, fun ho hg => ?_⟩
    obtain rfl := b.holds ho hg
    exact ⟨((l.sane o).maps _ _ hg).number hk, rfl, rfl, rfl, hc⟩

theorem below_of_objectGet {path : Path} (o : h.Sane)
    (hr : (h.perform (.objectGet path)).1 = .ok fd) :
    fd < (h.perform (.objectGet path)).2.machine.nextFd := by
  rw [o.reply] at hr
  rw [o.machine]
  obtain ⟨_, _, ho⟩ := Machine.objectGet_eq_ok <| Machine.eq_ok_of_settle hr
  exact Machine.lt_nextFd_openHandle ho

theorem ofPath_yields (path : Path) (o : h.Sane) :
    Yields (ofPath path) h fun m h' => m.Faithful h'.machine := by
  have l : h.Leads Quiet (h.perform (.objectGet path)).2 := .perform trivial
  refine .perform o ?_
  refine .bind (q := fun fd h => fd < h.machine.nextFd) (p := Quiet) (.accept ..)
    (.accept fun fd hr => below_of_objectGet o ((o.reply _).trans hr)) fun fd h₁ l₁ hb => ?_
  have o₁ := l₁.sane (l.sane o)
  refine .bind (infoOrRelease_asks _ fd) (infoOrRelease_yields _ o₁ hb) fun info h₂ l₂ b => ?_
  refine .bind (ofInfo_asks fd info) (ofInfo_yields (l₂.sane o₁) b) fun m h₃ l₃ f => ?_
  exact f.pinned (some path)

section Edits

variable {m : Map} {d : Map → Prop} (hd : Declared d)

-- What every piece of work on a map keeps.
def Kept (d : Map → Prop) (s : Map × Host) : Prop :=
  s.2.Sane ∧ s.1.Told d s.2.machine

theorem Kept.leads (k : Kept d (m, h)) (l : h.Leads p h') : Kept d (m, h') :=
  ⟨l.sane k.left, k.right.leads l k.left⟩

theorem kept_of_not_live (o : h.Sane) (hd : d m) (hn : ∀ fd, m.handle ≠ .live fd) : Kept d (m, h) :=
  ⟨o, told_of_not_live hd hn⟩

theorem lift_kept {work : Attempt α} (w : Asks p work) : Maintains (Kept d) (liftM work : Edit Map α) :=
  fun (_, h) k => ends_lift.mpr <| (w.ends h).imp (fun _ _ l => k.leads l) fun _ _ l => k.leads l

theorem liftExcept_kept (x : Except Error α) : Maintains (Kept d) (liftM x : Edit Map α) := by
  intro s k
  rw [ends_liftExcept]
  cases x <;> exact k

theorem change_kept {f : Map → Map}
    (hf : ∀ {m : Map} {machine}, m.Told d machine → (f m).Told d machine) :
    Maintains (Kept d) (Edit.change f) :=
  fun _ k => ⟨k.left, hf k.right⟩

theorem object_kept {next : Map → Edit Map α} (n : ∀ m, Maintains (Kept d) (next m)) :
    Maintains (Kept d) (Edit.object >>= next) :=
  fun s k => ends_bind.mpr <| n s.1 s k

theorem pure_kept (a : α) : Maintains (Kept d) (pure a : Edit Map α) :=
  fun _ k => k

theorem throw_kept (e : Error) : Maintains (Kept d) (throw e : Edit Map α) :=
  fun _ k => k

theorem perform_kept {r : Request} (hr : r.Quiet) :
    Maintains (Kept d) (liftM (Attempt.perform r) : Edit Map r.Reply) :=
  lift_kept (.perform hr)

theorem accept_kept {ε : Type} (wrap : ε → Error) (x : Except ε α) :
    Maintains (Kept d) (liftM (Attempt.accept wrap x) : Edit Map α) :=
  lift_kept (p := Quiet) (.accept ..)

theorem debug_kept (text : String) : Maintains (Kept d) (liftM (Attempt.debug text) : Edit Map Unit) :=
  lift_kept (p := Quiet) (.debug text)

-- A map that takes up a handle on what it declares.
theorem Kept.open (k : Kept d (m, h)) (hd : Declared d) (b : h.machine.Behind fd m.Declares) :
    Kept d ({ m with handle := .live fd }, h) := by
  refine ⟨k.left, hd.keep m.pinPath m.cpus _ k.right.declared, fun hm => ?_⟩
  cases hm
  exact b.mono fun _ r => ⟨r.kind, r.keySize, r.valueSize, r.maxEntries, r.cpus⟩

theorem declares_newMap {machine : Machine} {template : Option Fd}
    (hc : m.kind.isPerCpu → m.cpus = Machine.cpus) :
    m.Declares (machine.newMap ⟨m.name, m.shape, template⟩) where
  kind       := rfl
  keySize    := rfl
  valueSize  := rfl
  maxEntries := rfl
  cpus       := hc

-- What agrees with what the kernel reports is the map behind the handle.
theorem behind_of_agrees {machine : Machine} {info : MapInfo} (w : machine.MapsWellFormed)
    (b : machine.Behind fd (·.info = info)) (ha : m.Agrees info)
    (hc : m.kind.isPerCpu → m.cpus = Machine.cpus) : machine.Behind fd m.Mirrors := by
  refine ⟨b.below, fun ho hg => ?_⟩
  obtain rfl := b.holds ho hg
  obtain ⟨hk, hs, hv, he⟩ := ha
  exact ⟨(w _ _ hg).number (hk ▸ MapKind.ofNumber?_number m.kind), hs.symm, hv.symm, he.symm, hc⟩

include hd

theorem pin_kept (path : Path) : Maintains (Kept d) (pin path) := by
  refine object_kept fun m => (liftExcept_kept _).bind fun fd => ?_
  refine (perform_kept (r := .objectPin fd path) trivial).bind fun _ => ?_
  exact (accept_kept _ _).bind fun _ => (debug_kept _).bind fun _ => change_kept fun t => t.pinned hd _

theorem unpin_kept : Maintains (Kept d) unpin := by
  refine object_kept fun m => ?_
  split
  case h_1 => exact throw_kept _
  case h_2 =>
    refine (lift_kept (p := Quiet) (.files ..)).bind fun _ => ?_
    exact (change_kept fun t => t.pinned hd _).bind fun _ => debug_kept _

-- A map that is closed is not open on anything.
theorem closed_kept : Maintains (Kept d) (Edit.change ({ · with handle := .closed } : Map → Map)) :=
  change_kept fun {m} _ t => told_of_not_live (hd.keep m.pinPath m.cpus _ t.declared) fun _ hm => by cases hm

theorem close_kept : Maintains (Kept d) close := by
  refine object_kept fun m => ?_
  split
  case h_1 => exact throw_kept _
  case h_2 => exact closed_kept hd
  case h_3 fd _ =>
    refine (closed_kept hd).bind fun _ => (perform_kept (r := .close fd) trivial).bind fun _ => ?_
    exact (accept_kept _ _).bind fun _ => debug_kept _

theorem createNew_kept (k : Kept d (m, h)) (hc : m.kind.isPerCpu → m.cpus = Machine.cpus) :
    Ends createNew (m, h) (fun _ => Kept d) fun _ => Kept d := by
  simp only [createNew, ends_bind, ends_object, ends_lift]
  refine ((createTemplate_asks m).ends h).imp (fun template h₁ l₁ => ?_) fun _ _ l => k.leads l
  have k₁ := k.leads l₁
  let r : Request := .mapCreate ⟨m.name, m.shape, template⟩
  have l₂ : h₁.Leads Quiet (h₁.perform r).2 := .perform trivial
  have opened (fd : Fd) (hr : (h₁.perform r).1 = .ok fd) :
      (h₁.perform r).2.machine.Behind fd m.Declares := by
    rw [k₁.left.reply] at hr
    rw [k₁.left.machine]
    exact (Machine.behind_of_mapCreate <| Machine.eq_ok_of_settle hr).mono fun _ he => he ▸ declares_newMap hc
  have k₂ := k₁.leads l₂
  refine ends_perform.mpr ?_
  refine ((releaseTemplate_asks m template).ends _).imp (fun _ h₃ l₃ => ?_) fun _ _ l => k₂.leads l
  rw [ends_accept]
  split
  case h_1 fd hr =>
    have b := (opened fd hr).retained (l₃.retains k₂.left) k₂.left.consistent fun _ _ => Declares.congr
    exact debug_kept _ _ ((k₂.leads l₃).open hd b)
  case h_2 => exact k₂.leads l₃

theorem openPinned_kept (path : Path) (k : Kept d (m, h)) (hc : m.kind.isPerCpu → m.cpus = Machine.cpus) :
    Ends (openPinned path) (m, h) (fun _ => Kept d) fun _ => Kept d := by
  simp only [openPinned, ends_bind, ends_object, ends_lift]
  have l₁ : h.Leads Quiet (h.perform (.objectGet path)).2 := .perform trivial
  have k₁ := k.leads l₁
  refine ends_perform.mpr ?_
  rw [ends_accept]
  split
  case h_2 => exact k₁
  case h_1 fd hr =>
    have hb := below_of_objectGet k.left hr
    refine (((infoOrRelease_asks _ fd).ends _).and (infoOrRelease_yields _ k₁.left hb)).imp ?_ ?_
    case refine_2 => exact fun _ _ b => k₁.leads b.left
    case refine_1 =>
      rintro info h₂ ⟨l₂, b⟩
      have k₂ := k₁.leads l₂
      simp only [ends_ite]
      refine ⟨fun ha => ?_, fun _ => ?_⟩
      case refine_1 =>
        have b := (behind_of_agrees k₂.left.maps b ha hc).mono fun _ r => r.declares
        exact debug_kept _ _ (k₂.open hd b)
      case refine_2 =>
        exact ((lift_kept (release_asks fd)).bind fun _ => throw_kept _) _ k₂

theorem create_kept : Maintains (Kept d) create := by
  rintro ⟨m, h⟩ k
  simp only [create, ends_bind, ends_object]
  split
  case h_1 => exact k
  case h_2 => exact k
  case h_3 hm =>
    have hn (fd : Fd) : m.handle ≠ .live fd := by simp [hm]
    simp only [ends_bind, ends_lift, ends_change]
    refine (((countCpus_asks m).ends h).and (countCpus_yields m k.left)).imp ?_ ?_
    case refine_2 => exact fun _ _ b => k.leads b.left
    case refine_1 =>
      rintro cpus h₁ ⟨l, hc⟩
      have k₁ : Kept d ({ m with cpus }, h₁) :=
        kept_of_not_live (l.sane k.left) (hd.keep m.pinPath cpus m.handle k.right.declared) hn
      split
      case h_1 => exact createNew_kept hd k₁ hc
      case h_2 path _ =>
        simp only [ends_bind, ends_lift, ends_get, ends_ite]
        refine ⟨fun _ => openPinned_kept hd path k₁ hc, fun _ => ?_⟩
        exact (createNew_kept hd k₁ hc).imp (fun _ s k => pin_kept hd path s k) fun _ _ k => k

end Edits

end Map

namespace MapCommand

open Map (Kept)

variable {d : Map → Prop}

theorem ask_kept {answer : α → Answer} {question : Map → Attempt α} {p : Map → Request → Prop}
    (hq : ∀ m, Asks (p m) (question m)) : Maintains (Kept d) (ask answer question) :=
  Map.object_kept fun m => (Map.lift_kept (hq m)).bind fun _ => Map.pure_kept _

theorem askSafely_kept {answer : α → Answer} {question : Map → Host → α × Host}
    {p : Map → Request → Prop} (hq : ∀ m (h : Host), h.Leads (p m) (question m h).2) :
    Maintains (Kept d) (askSafely answer question) :=
  fun (m, h) k => k.leads (hq m h)

theorem run_kept (hd : Map.Declared d) (c : MapCommand) : Maintains (Kept d) c.run := by
  cases c
  case create        => exact (Map.create_kept hd).bind fun _ => Map.pure_kept _
  case pin path      => exact (Map.pin_kept hd path).bind fun _ => Map.pure_kept _
  case unpin         => exact (Map.unpin_kept hd).bind fun _ => Map.pure_kept _
  case close         => exact (Map.close_kept hd).bind fun _ => Map.pure_kept _
  case state | describe => exact Map.object_kept fun _ => Map.pure_kept _
  case kernelInfo    => exact ask_kept Map.kernelInfo_asks
  case insert | update | upsert => exact ask_kept fun m => m.write_asks ..
  case delete        => exact ask_kept fun m => m.delete_asks _
  case lookup        => exact ask_kept fun m => m.lookup_asks _
  case lookupInteger => exact ask_kept fun m => m.lookupInteger_asks _
  case lookupText    => exact ask_kept fun m => m.lookupText_asks _
  case lookupPerCpu  => exact ask_kept fun m => m.lookupPerCpu_asks _
  case nextKey       => exact ask_kept fun m => m.nextKey_asks _
  case keys limit    => exact askSafely_kept fun m h => m.takeKeys_leads limit {} h
  case walk edits limit => exact askSafely_kept fun m h => m.takeEntries_leads edits limit 0 {} h

end MapCommand

end EbpfManager
