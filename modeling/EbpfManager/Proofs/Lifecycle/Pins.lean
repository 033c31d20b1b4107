import EbpfManager.Proofs.Lifecycle.Creation

namespace EbpfManager

open Attempt Relation

variable {m m' : Map} {h h' : Host} {path : Path} {key : List String} {id : Nat}

-- That a request pins nothing under a key.
def Request.SparesPin (key : List String) (r : Request) : Prop :=
  ∀ fd path, r = .objectPin fd path → path.key ≠ key

theorem Request.Plain.sparesPin {r : Request} (hr : r.Plain) : r.SparesPin key := by
  rintro fd path rfl
  exact hr.elim

theorem Request.Accesses.sparesPin {r : Request} (hr : r.Accesses m) : r.SparesPin key := by
  rintro fd path rfl
  exact hr.elim

theorem Host.Leads.pin (l : h.Leads (Request.SparesPin key) h') (hf : h.faults = []) :
    h'.machine.pins.get? key = h.machine.pins.get? key := by
  refine l.keep (k := fun m => m.pins.get? key = h.machine.pins.get? key) hf (fun m r hr hk => ?_)
    (fun _ _ hk => hk) rfl
  by_cases hp : r.Pins
  case neg => rwa [(m.frame r).pins fun hc => hp (Request.pins_of_call hc)]
  case pos =>
    obtain ⟨fd, path, rfl⟩ := hp
    refine Machine.settle_cases (p := fun m => m.pins.get? key = h.machine.pins.get? key) hk fun _ m' he => ?_
    obtain ⟨object, files, _, _, rfl⟩ := Machine.objectPin_eq_ok he
    rwa [Table.get?_insert, if_neg (hr fd path rfl)]

theorem Host.pins_of_objectPin_eq_error {fd : Fd} {e : CallError} (hf : h.faults = [])
    (he : (h.perform (.objectPin fd path)).1 = .error e) :
    (h.perform (.objectPin fd path)).2.machine.pins = h.machine.pins := by
  rw [perform_of_faults_eq_nil _ hf] at he ⊢
  simp only [Machine.answer] at he ⊢
  cases hp : h.machine.objectPin fd path
  case ok r =>
    rw [hp] at he
    cases he
  case error => rfl

theorem Handle.Moves.ne_unset {a b : Handle} (st : Moves a b) : b ≠ .unset := by
  cases st <;> simp

theorem Handle.Moves.unset_of_live {a : Handle} {fd : Fd} (st : Moves a (.live fd)) : a = .unset := by
  cases st
  rfl

theorem MapCommand.run_sparesPin {c : MapCommand} (hn : m.handle ≠ .unset) (hc : ∀ path, c ≠ .pin path) :
    h.Leads (Request.SparesPin key) (c.run.outcome m h).2.2 := by
  by_cases ha : c.Accesses
  case pos => exact (run_accesses ha m h).mono fun _ => Request.Accesses.sparesPin
  case neg =>
    have plain (w : Edit.Asks Request.Plain c.run) : h.Leads (Request.SparesPin key) (c.run.outcome m h).2.2 :=
      (w.outcome m h).mono fun _ => Request.Plain.sparesPin
    cases c
    case create =>
      -- The map has been created before.
      have still : Ends MapCommand.create.run (m, h) (fun _ s => s.2 = h) fun _ s => s.2 = h := by
        refine ends_bind.mpr ?_
        simp only [Map.create, ends_bind, ends_object]
        cases hm : m.handle
        case unset         => exact absurd hm hn
        case live | closed => exact rfl
      rw [still.of_editOutcome]
      exact .refl
    case pin path         => exact absurd rfl (hc path)
    case unpin            => exact plain (.bind Map.unpin_plain fun _ => .pure _)
    case close            => exact plain (.bind Map.close_plain fun _ => .pure _)
    case kernelInfo       => exact plain (ask_asks Map.kernelInfo_plain)
    case state | describe => exact plain (.object fun _ => .pure _)
    all_goals exact absurd trivial ha

namespace Map

theorem Step.keeps {s s' : Map × Host} (st : Step s s') (b : s.2.Harbors s.1.held) :
    s.2.machine.Keeps s'.2.machine := by
  cases st
  case call c m h   => exact b.keeps (c.run_leads m h)
  case key c m h    => exact b.keeps (m.stepKey_leads c h)
  case entry c m h  => exact b.keeps (m.stepEntryWithin_leads _ c h)
  case others l     => exact b.keeps l

-- A map that is open stays open on the same map of the kernel, until it is closed.
theorem Step.open_on {s s' : Map × Host} {fd : Fd} (st : Step s s') (b : s.2.Harbors s.1.held)
    (hn : s.1.handle ≠ .unset) (hm : s'.1.handle = .live fd) :
    s.1.handle = .live fd ∧ s'.2.machine.handles.get? fd = s.2.machine.handles.get? fd := by
  obtain ⟨b', a⟩ := st.harbors b
  have hl : s.1.handle = .live fd := by
    obtain he | a := (reflGen_iff _ _ _).mp a
    case inl => exact he.symm.trans hm
    case inr =>
      rw [hm] at a
      exact absurd a.unset_of_live hn
  have held {m : Map} (hm : m.handle = .live fd) : (fd, HandleKind.map) ∈ m.held := by simp [Map.held, hm]
  obtain ⟨object, hg, _⟩ := b.get? (held hl)
  obtain ⟨object', hg', _⟩ := b'.get? (held hm)
  exact ⟨hl, hg'.trans ((st.keeps b).handle (b.consistent.below hg) hg').symm⟩

-- That a map has been pinned at a path: there the kernel has noted the map that it is open on.
structure PinnedAt (m : Map) (h : Host) (path : Path) (id : Nat) : Prop where
  pinPath : m.pinPath = some path
  pin     : h.machine.pins.get? path.key = some (.map id)
  handle  : ∃ fd, m.handle = .live fd ∧ h.machine.handles.get? fd = some (.map id)

theorem pin_pinnedAt (b : h.Harbors m.held) (he : (pin path).outcome m h = (.ok (), m', h')) :
    ∃ id, m'.PinnedAt h' path id := by
  by_cases hl : ∃ fd, m.handle = .live fd
  case neg =>
    have hn : ∀ fd, m.handle ≠ .live fd := fun fd hm => hl ⟨fd, hm⟩
    have hr : (pin path).outcome m h = (.error m.refusal, m, h) :=
      Ends.editOutcome_eq_error (by simp [pin, liveFd_eq_refusal hn])
    cases hr.symm.trans he
  case pos =>
    obtain ⟨fd, hm⟩ := hl
    obtain ⟨object, ho, hk⟩ := b.get? (show (fd, .map) ∈ m.held by simp [held, hm])
    cases object
    case program | link => cases hk
    case map id =>
      have w := (pin_ends path b.faultless hm ho).of_editOutcome_ok (congrArg Prod.fst he)
      rw [he] at w
      obtain ⟨rfl, hh, _, hp⟩ := w
      exact ⟨id, rfl, (Machine.pinned_iff.mp hp).right, fd, hm, hh ▸ ho⟩

theorem create_pinnedAt (hu : m.handle = .unset) (b : h.Harbors 0) (hp : m.pinPath = some path)
    (he : create.outcome m h = (.ok (), m', h')) : ∃ id, m'.PinnedAt h' path id := by
  obtain ⟨fd, id, cpus, rfl, g, hp'⟩ := create_created hu b he
  refine ⟨id, hp, (Machine.pinned_iff.mp (hp' path hp)).right, fd, rfl, ?_⟩
  rw [g.handles, Table.get?_insert, if_pos rfl]

theorem ofPath_ends (hf : h.faults = []) (c : h.machine.Consistent) :
    Ends (ofPath path) h (fun m h' => ∃ id, m.PinnedAt h' path id) fun _ _ => True := by
  simp only [ofPath, ends_bind, ends_pure]
  refine (objectGet_ends hf).imp_ok ?_
  rintro reply h₁ ⟨hf₁, hr⟩
  cases reply
  case error => trivial
  case ok fd =>
    obtain ⟨object, hp, rfl, hm₁⟩ := hr
    have hp := (Machine.pinned_iff.mp hp).right
    simp only [ends_accept]
    refine (infoOrRelease_fresh hf₁ hm₁ c (c.pin hp)).imp ?_ fun _ _ _ => trivial
    rintro info h₂ ⟨hf₂, hm₂, id, map, rfl, _, rfl⟩
    have hm₂ := hm₂.trans hm₁
    unfold ofInfo
    split
    case h_1 =>
      simp only [ends_bind, ends_throw]
      exact .of_forall (fun _ _ => trivial) fun _ _ => trivial
    case h_2 =>
      simp only [ends_bind, ends_pure, ends_orElseClean]
      refine (countCpus_ends hf₂).imp (fun cpus h₃ w => ⟨id, rfl, ?_, _, rfl, ?_⟩) fun _ _ => False.elim
      case refine_1 =>
        rw [w.machine, hm₂]
        exact hp
      case refine_2 =>
        rw [w.machine, hm₂]
        exact Machine.openHandle_get?

-- What may happen while a map keeps its pin: it is neither unpinned nor pinned elsewhere, and whatever others try
-- to pin in its place, they are refused.
inductive StepAt (path : Path) : Map × Host → Map × Host → Prop
  | call {c : MapCommand} {m : Map} {h : Host} : (c.run.outcome m h).2.1.pinPath = some path →
      StepAt path (m, h) (c.run.outcome m h).2
  | key (c : Cursor) (m : Map) (h : Host)   : StepAt path (m, h) (m, (m.stepKey c h).2.2)
  | entry (c : Cursor) (m : Map) (h : Host) : StepAt path (m, h) (m, (m.stepEntry c h).2.2)
  | others {m : Map} {h h' : Host} : h.Leads (fun r => r.Spares m.held ∧ r.SparesPin path.key) h' →
      StepAt path (m, h) (m, h')
  | refused {m : Map} {h : Host} {fd : Fd} {other : Path} {e : CallError} :
      (h.perform (.objectPin fd other)).1 = .error e → StepAt path (m, h) (m, (h.perform (.objectPin fd other)).2)

theorem StepAt.step {s s' : Map × Host} (st : StepAt path s s') : Step s s' := by
  cases st
  case call       => exact .call ..
  case key        => exact .key ..
  case entry      => exact .entry ..
  case others l   => exact .others (l.mono fun _ => And.left)
  case refused    => exact .others (.perform nofun)

-- What is left of that once the map may have been closed.
structure KeepsPin (path : Path) (id : Nat) (s : Map × Host) : Prop where
  pinPath : s.1.pinPath = some path
  pin     : s.2.machine.pins.get? path.key = some (.map id)
  opened  : s.1.handle ≠ .unset
  handle {fd : Fd} : s.1.handle = .live fd → s.2.machine.handles.get? fd = some (.map id)

theorem PinnedAt.keeps (p : m.PinnedAt h path id) : KeepsPin path id (m, h) where
  pinPath := p.pinPath
  pin     := p.pin
  opened hu := by
    obtain ⟨fd, hm, _⟩ := p.handle
    cases hu.symm.trans hm
  handle {fd} hm := by
    obtain ⟨fd', hm', hg⟩ := p.handle
    cases hm.symm.trans hm'
    exact hg

-- A map that is pinned again in the same place is still the one that is pinned there.
theorem KeepsPin.pin_again (k : KeepsPin path id (m, h)) (hf : h.faults = []) {path' : Path}
    (hp : ((MapCommand.pin path').run.outcome m h).2.1.pinPath = some path) :
    ((MapCommand.pin path').run.outcome m h).2.2.machine.pins.get? path.key = some (.map id) := by
  by_cases hl : ∃ fd, m.handle = .live fd
  case neg =>
    rw [MapCommand.run_refused (fun fd hm => hl ⟨fd, hm⟩) rfl]
    exact k.pin
  case pos =>
    obtain ⟨fd, hm⟩ := hl
    have w : Ends (MapCommand.pin path').run (m, h)
        (fun _ s => s.1.pinPath = some path' ∧ s.2.machine.Pinned path' (.map id))
        fun _ s => s.2.machine = h.machine :=
      ends_bind.mpr <| (pin_ends path' hf hm (k.handle hm)).imp (fun _ s ⟨he, _, _, hp⟩ => ⟨he ▸ rfl, hp⟩)
        fun _ s ⟨_, _, _, _, he⟩ => he
    cases he : ((MapCommand.pin path').run.outcome m h).1
    case error => exact w.of_editOutcome_error he ▸ k.pin
    case ok =>
      obtain ⟨hp', hq⟩ := w.of_editOutcome_ok he
      cases hp.symm.trans hp'
      exact (Machine.pinned_iff.mp hq).right

theorem KeepsPin.step {s s' : Map × Host} (k : KeepsPin path id s) (st : StepAt path s s') (b : s.2.Harbors s.1.held) :
    KeepsPin path id s' where
  pinPath := by
    cases st
    case call hp => exact hp
    case key | entry | others | refused => exact k.pinPath
  pin := by
    cases st
    case call c m h hp =>
      by_cases hc : ∃ path', c = .pin path'
      case pos =>
        obtain ⟨path', rfl⟩ := hc
        exact k.pin_again b.faultless hp
      case neg =>
        exact ((MapCommand.run_sparesPin k.opened fun path' he => hc ⟨path', he⟩).pin b.faultless).trans k.pin
    case key c m h =>
      exact (((m.stepKey_leads c h).mono fun _ hr => hr.accesses.sparesPin).pin b.faultless).trans k.pin
    case entry c m h =>
      exact (((m.stepEntryWithin_leads _ c h).mono fun _ hr => hr.accesses.sparesPin).pin b.faultless).trans k.pin
    case others l => exact ((l.mono fun _ => And.right).pin b.faultless).trans k.pin
    case refused he => exact (Host.pins_of_objectPin_eq_error b.faultless he).symm ▸ k.pin
  opened hu := by
    have a := (st.step.harbors b).right
    rw [hu] at a
    obtain he | a := (reflGen_iff _ _ _).mp a
    case inl => exact k.opened he.symm
    case inr => exact a.ne_unset rfl
  handle {fd} hm := by
    obtain ⟨hl, hg⟩ := st.step.open_on b k.opened hm
    exact hg.trans (k.handle hl)

theorem KeepsPin.steps {s s' : Map × Host} (k : KeepsPin path id s) (st : ReflTransGen (StepAt path) s s')
    (b : s.2.Harbors s.1.held) : KeepsPin path id s' ∧ s'.2.Harbors s'.1.held := by
  -- By induction on what happens.
  induction st
  case refl => exact ⟨k, b⟩
  case tail _ st ih => exact ⟨ih.left.step st ih.right, (st.step.harbors ih.right).left⟩

-- That a map is open on a map of the kernel, or has been at some time.
def HasBeenOn (s₀ s : Map × Host) (id : Nat) : Prop :=
  ∃ s₁ fd, ReflTransGen Step s₀ s₁ ∧ ReflTransGen Step s₁ s ∧ s₁.1.handle = .live fd ∧
    s₁.2.machine.handles.get? fd = some (.map id)

theorem HasBeenOn.opened {s₀ s : Map × Host} (o : HasBeenOn s₀ s id) (b : Begins s₀.1 s₀.2) :
    s.1.handle ≠ .unset := by
  obtain ⟨s₁, fd, st₁, st₂, hm, _⟩ := o
  have hm' := Handle.Moves.live (steps_harbors st₂ (steps_harbors st₁ b.harbors).left).right hm
  rintro hu
  simp [hu] at hm'

-- What unpinning a map should come to: what is removed is a pin of its own.
def UnpinsOwn (m : Map) (s₀ : Map × Host) (h : Host) : Prop :=
  ∀ {m' : Map} {h' : Host}, unpin.outcome m h = (.ok (), m', h') →
    ∃ path id, m.pinPath = some path ∧ h.machine.Pinned path (.map id) ∧ HasBeenOn s₀ (m, h) id

theorem unpin_ends :
    Ends unpin (m, h)
      (fun _ s => ∃ path place, m.pinPath = some path ∧ h.machine.files.HasFile path place ∧
        s.1 = { m with pinPath := none } ∧
        s.2.machine = { h.machine with files := ⟨h.machine.files.entries.erase place⟩ })
      fun _ s => s = (m, h) ∧ ∀ path place, m.pinPath = some path → ¬h.machine.files.HasFile path place := by
  simp only [unpin, ends_bind, ends_object]
  split
  case h_1 hp => exact ⟨rfl, by simp [hp]⟩
  case h_2 path hp =>
    simp only [ends_bind, ends_lift, ends_files, ends_change, ends_debug]
    split
    case h_1 hr =>
      obtain ⟨place, hf, rfl⟩ := Files.Tree.remove_eq_ok.mp hr
      exact ⟨path, place, hp, hf, trivial, rfl⟩
    case h_2 hr =>
      refine ⟨trivial, fun path' place hp' hf => ?_⟩
      cases hp.symm.trans hp'
      cases hr.symm.trans (Files.Tree.remove_eq_ok.mpr ⟨place, hf, rfl⟩)

-- What unpinning a map comes to that has come from some beginning.
structure Unpinning (s₀ : Map × Host) (m : Map) (h : Host) : Prop where
  -- The file at the pin path is removed, whoever has made it and whatever has become of the map. No other file
  -- is, and nothing else happens to the machine.
  done {m' : Map} {h' : Host} : unpin.outcome m h = (.ok (), m', h') →
    ∃ path place, m.pinPath = some path ∧ h.machine.files.HasFile path place ∧ m' = { m with pinPath := none } ∧
      h'.machine = { h.machine with files := h'.machine.files } ∧
      ∀ q, h'.machine.files.entry? q = if place = q then none else h.machine.files.entry? q
  done_iff : (unpin.outcome m h).1 = .ok () ↔
    ∃ path place, m.pinPath = some path ∧ h.machine.files.HasFile path place
  failed {e : Error} {m' : Map} {h' : Host} : unpin.outcome m h = (.error e, m', h') → m' = m ∧ h' = h
  -- It is the map's own pin if the map has been pinned there and has kept its pin.
  own {s : Map × Host} {path : Path} {id : Nat} : ReflTransGen Step s₀ s → s.1.PinnedAt s.2 path id →
    ReflTransGen (StepAt path) s (m, h) → m.UnpinsOwn s₀ h
  -- The three ways in which a map is pinned.
  pinned {path : Path} {m' : Map} {h' : Host} : (pin path).outcome m h = (.ok (), m', h') →
    ∃ id, m'.PinnedAt h' path id
  created {path : Path} {m' : Map} {h' : Host} : m.handle = .unset → m.pinPath = some path →
    create.outcome m h = (.ok (), m', h') → ∃ id, m'.PinnedAt h' path id
  opened {path : Path} {m' : Map} {h' : Host} : (ofPath path).outcome h = (.ok m', h') →
    ∃ id, m'.PinnedAt h' path id

theorem unpin_own {s₀ s : Map × Host} (hs : ReflTransGen Step s₀ s) (p : s.1.PinnedAt s.2 path id)
    (st : ReflTransGen (StepAt path) s (m, h)) (b : s.2.Harbors s.1.held) : m.UnpinsOwn s₀ h := by
  intro m' h' he
  obtain ⟨k, _⟩ := p.keeps.steps st b
  have w := unpin_ends.of_editOutcome_ok (congrArg Prod.fst he)
  obtain ⟨path', place, hp, hf, _⟩ := w
  cases hp.symm.trans k.pinPath
  obtain ⟨fd, hm, hg⟩ := p.handle
  exact ⟨path, id, hp, Machine.pinned_iff.mpr ⟨hf.exists?, k.pin⟩, s, fd, hs,
    st.lift (fun s => s) fun _ _ => StepAt.step, hm, hg⟩

-- What is removed through a map is the file at the path of its pin, whoever has pinned what there. It is the map's
-- own pin if the map was pinned there, by whichever of the three ways, and nobody has pinned anything in its place
-- since.
theorem unpinning {m₀ : Map} {h₀ : Host} (b : Begins m₀ h₀) (st : ReflTransGen Step (m₀, h₀) (m, h)) :
    Unpinning (m₀, h₀) m h := by
  have b' : h.Harbors m.held := (steps_harbors st b.harbors).left
  constructor
  case done =>
    intro m' h' he
    have w := unpin_ends.of_editOutcome_ok (congrArg Prod.fst he)
    rw [he] at w
    obtain ⟨path, place, hp, hf, hm, hh⟩ := w
    obtain ⟨contents, hc⟩ := hf.right
    refine ⟨path, place, hp, hf, hm, by rw [hh], fun q => ?_⟩
    rw [hh]
    exact Files.Tree.entry?_erase hc q
  case done_iff =>
    constructor
    case mp =>
      intro he
      obtain ⟨path, place, hp, hf, _⟩ := unpin_ends.of_editOutcome_ok he
      exact ⟨path, place, hp, hf⟩
    case mpr =>
      rintro ⟨path, place, hp, hf⟩
      cases he : (unpin.outcome m h).1
      case ok    => rfl
      case error => exact absurd hf ((unpin_ends.of_editOutcome_error he).right path place hp)
  case failed =>
    intro e m' h' he
    have w := unpin_ends.of_editOutcome_error (congrArg Prod.fst he)
    rw [he] at w
    exact Prod.mk.inj w.left
  case own =>
    exact fun hs p st' => unpin_own hs p st' (steps_harbors hs b.harbors).left
  case pinned => exact pin_pinnedAt b'
  case created =>
    exact fun hu => create_pinnedAt hu ⟨b'.faultless, b'.consistent, Multiset.zero_le _⟩
  case opened =>
    intro path m' h' he
    have w := (ofPath_ends b'.faultless b'.consistent).of_outcome_ok (congrArg Prod.fst he)
    rwa [he] at w

def first : Map :=
  { name := "first", kind := .hash, keySize := 4, valueSize := 4, maxEntries := 8, pinPath := some ⟨"pin"⟩ }

-- A map that was pinned when it was created, and then closed.
theorem unpinning_of_closed :
    let created := (MapCommand.create.run.outcome first {}).2
    let closed := (MapCommand.close.run.outcome created.1 created.2).2
    closed.1.handle = .closed ∧ (unpin.outcome closed.1 closed.2).1 = .ok () ∧
      Unpinning (first, {}) closed.1 closed.2 ∧ closed.1.UnpinsOwn (first, {}) closed.2 := by
  intro created closed
  have b : Begins first {} := ⟨.start .empty, rfl, nofun⟩
  have st : ReflTransGen Step (first, {}) created := .single (.call .create first {})
  have u : Unpinning (first, {}) closed.1 closed.2 := unpinning b (st.tail (.call .close created.1 created.2))
  have p : created.1.PinnedAt created.2 ⟨"pin"⟩ 1 :=
    ⟨by decide +kernel, by decide +kernel, 3, by decide +kernel, by decide +kernel⟩
  have k : StepAt ⟨"pin"⟩ created closed := .call (by decide +kernel)
  exact ⟨by decide +kernel, by decide +kernel, u, u.own st p (.single k)⟩

-- A map that is not the one pinned at its path: creating it is refused.
def second : Map :=
  { first with name := "second", kind := .array }

theorem second_unpins_first : ¬∀ {m₀ m : Map} {h₀ h : Host}, Begins m₀ h₀ →
    ReflTransGen Step (m₀, h₀) (m, h) → m.UnpinsOwn (m₀, h₀) h := by
  intro all
  let h₁ := (create.outcome first {}).2.2
  let refused := (MapCommand.create.run.outcome second h₁).2
  have b : Begins second {} := ⟨.start .empty, rfl, nofun⟩
  have l : ({} : Host).Leads (Request.Spares second.held) h₁ :=
    (create_asks.outcome first {}).mono fun _ _ _ _ _ => Multiset.notMem_zero _
  have st : ReflTransGen Step (second, {}) refused := (ReflTransGen.single (.others l)).tail (.call .create second h₁)
  have he : (unpin.outcome refused.1 refused.2).1 = .ok () := by decide +kernel
  obtain ⟨_, _, _, _, o⟩ := all b st (Prod.ext he rfl)
  exact o.opened b (by decide +kernel)

end Map

end EbpfManager
