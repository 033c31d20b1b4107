import EbpfManager.Proofs.Introspection.Keys
import EbpfManager.Proofs.Introspection.Runs
import EbpfManager.Proofs.Names

namespace EbpfManager

open Request (Quiet)

variable {α β : Type} {h h' : Host} {fd since : Fd} {id : Nat} {map : KernelMap}

-- That a handle which was given out is open on nothing but one object.
structure Machine.OnlyOn (m : Machine) (fd : Fd) (object : KernelObject) : Prop where
  below : fd < m.nextFd
  only {object' : KernelObject} : m.handles.get? fd = some object' → object' = object

namespace Machine

variable {m m' : Machine} {object : KernelObject} {program : ProgramInfo}

theorem OnlyOn.keeps (b : m.OnlyOn fd object) (k : m.Keeps m') : m'.OnlyOn fd object where
  below  := lt_of_lt_of_le b.below k.nextFd
  only h := b.only (k.handle b.below h)

theorem get?_openHandle (m : Machine) (object : KernelObject) :
    (m.openHandle object).2.handles.get? m.nextFd = some object := by
  simp [openHandle, Table.get?_insert]

theorem onlyOn_openHandle (m : Machine) (object : KernelObject) : (m.openHandle object).2.OnlyOn m.nextFd object where
  below  := Int.lt_succ _
  only h := Option.some_inj.mp (h.symm.trans (m.get?_openHandle object))

theorem answer_mapFdById (hm : m.maps.get? id = some map) :
    m.answer (.mapFdById id) = (.ok m.nextFd, (m.openHandle (.map id)).2) := by
  simp [answer, mapFdById, Table.contains, hm, settle, openHandle]

theorem answer_programFdById (hp : m.programs.get? id = some program) :
    m.answer (.programFdById id) = (.ok m.nextFd, (m.openHandle (.program id)).2) := by
  simp [answer, programFdById, Table.contains, hp, settle, openHandle]

theorem answer_mapInfo (hm : m.mapAt fd = .ok (id, map)) : m.answer (.mapInfo fd) = (.ok map.info, m) := by
  simp [answer, hm]

theorem answer_programInfo (hp : m.programAt fd = .ok (id, program)) :
    m.answer (.programInfo fd) = (.ok program, m) := by
  simp [answer, hp]

end Machine

-- That work succeeds, and what it comes to.
def Attempt.Succeeds (work : Attempt α) (h : Host) (q : α → Host → Prop) : Prop :=
  Ends work h (fun a h' => h.Leads Quiet h' ∧ q a h') fun _ _ => False

namespace Attempt.Succeeds

variable {work : Attempt α} {next : α → Attempt β} {q q₁ : α → Host → Prop}
  {q' : β → Host → Prop} {a : α}

theorem imp (w : work.Succeeds h q) (hq : ∀ a h', h.Leads Quiet h' → q a h' → q₁ a h') : work.Succeeds h q₁ :=
  Ends.imp w (fun a h' ha => ⟨ha.left, hq a h' ha.left ha.right⟩) fun _ _ => id

theorem bind (w : work.Succeeds h q) (n : ∀ a h', h.Leads Quiet h' → q a h' → (next a).Succeeds h' q') :
    (work >>= next).Succeeds h q' :=
  ends_bind.mpr <| Ends.imp w
    (fun a h' ha => Ends.imp (n a h' ha.left ha.right)
      (fun _ _ hb => ⟨ha.left.trans hb.left, hb.right⟩) fun _ _ => id)
    fun _ _ => False.elim

protected theorem pure (ha : q a h) : (pure a : Attempt α).Succeeds h q :=
  ⟨.refl, ha⟩

-- What the kernel answers is what is gone on with.
theorem perform {r : Request} {reply : r.Reply} {machine : Machine} (o : h.Sane) (hr : r.Quiet)
    (he : h.machine.answer r = (reply, machine)) :
    (Attempt.perform r).Succeeds h fun reply' h' => reply' = reply ∧ h'.machine = machine :=
  ends_perform.mpr ⟨.perform hr, (o.reply r).trans (congrArg Prod.fst he),
    (o.machine r).trans (congrArg Prod.snd he)⟩

theorem accept {ε : Type} {wrap : ε → Error} {x : Except ε α} (hx : x = .ok a) :
    (Attempt.accept wrap x).Succeeds h fun a' h' => a' = a ∧ h' = h := by
  subst hx
  exact ⟨.refl, rfl, rfl⟩

theorem note {level : LogLevel} {text : String} {q : Unit → Host → Prop} (ha : q () (h.note level text)) :
    (Attempt.note level text).Succeeds h q :=
  ends_note.mpr ⟨.note level text .refl, ha⟩

theorem modify {f : Host → Host} {q : PUnit → Host → Prop} (l : h.Leads Quiet (f h)) (ha : q ⟨⟩ (f h)) :
    (modify f : Attempt PUnit).Succeeds h q :=
  ends_modify.mpr ⟨l, ha⟩

theorem orElseClean {clean : Host → Host} (w : work.Succeeds h q) : (work.orElseClean clean).Succeeds h q :=
  ends_orElseClean.mpr <| Ends.imp w (fun _ _ => id) fun _ _ => False.elim

end Attempt.Succeeds

-- That a map is what the kernel says about one of its own.
structure Map.Copies (m : Map) (map : KernelMap) : Prop where
  name       : m.name = map.info.name
  kind       : m.kind = map.kind
  reported   : m.kind.number = map.info.kindNumber
  keySize    : m.keySize = map.info.keySize.toNat
  valueSize  : m.valueSize = map.info.valueSize.toNat
  maxEntries : m.maxEntries = map.info.maxEntries.toNat
  flags      : m.flags = map.info.flags

-- That it has a handle of its own on it, which was not given out before.
structure Map.OpenedOn (m : Map) (since : Fd) (machine : Machine) (id : Nat) (map : KernelMap) : Prop where
  copies : m.Copies map
  handle : ∃ fd, m.handle = .live fd ∧ since ≤ fd ∧ machine.OnlyOn fd (.map id)

theorem Map.OpenedOn.keeps {m : Map} {machine machine' : Machine} (b : m.OpenedOn since machine id map)
    (k : machine.Keeps machine') : m.OpenedOn since machine' id map := by
  obtain ⟨fd, hm, hs, ho⟩ := b.handle
  exact ⟨b.copies, fd, hm, hs, ho.keeps k⟩

namespace Map

open Attempt (Succeeds)

theorem countCpus_succeeds (m : Map) (o : h.Sane) : m.countCpus.Succeeds h fun _ _ => True := by
  unfold countCpus
  split
  case isFalse => exact .pure trivial
  case isTrue  =>
    exact .bind (.perform o trivial rfl) fun _ _ _ hr => (Succeeds.accept hr.left).imp fun _ _ _ _ => trivial

theorem release_succeeds (o : h.Sane) : (release fd).Succeeds h fun _ _ => True :=
  .bind (.perform o trivial rfl) fun _ _ _ _ => .pure trivial

theorem infoOrRelease_succeeds (wrap : CallError → Error) (o : h.Sane) (hm : h.machine.mapAt fd = .ok (id, map)) :
    (infoOrRelease wrap fd).Succeeds h fun info _ => info = map.info := by
  refine .bind (.perform o trivial (Machine.answer_mapInfo hm)) fun reply _ _ hr => ?_
  obtain ⟨rfl, _⟩ := hr
  exact .pure rfl

theorem ofInfo_succeeds {kind : MapKind} (o : h.Sane) (hk : MapKind.ofNumber? map.info.kindNumber = some kind)
    (hm : kind = map.kind) : (ofInfo fd map.info).Succeeds h fun m _ => m.Copies map ∧ m.handle = .live fd := by
  unfold ofInfo
  simp only [hk]
  refine .bind (.orElseClean (countCpus_succeeds _ o)) fun cpus _ _ _ => .pure ⟨?_, rfl⟩
  exact ⟨rfl, hm, MapKind.number_of_ofNumber? hk, rfl, rfl, rfl, rfl⟩

end Map

namespace Snapshot

open Attempt (Succeeds)

-- What is found under the number of a map: nothing if it is of no known kind.
def Finds (since : Fd) (id : Nat) (map : KernelMap) (machine : Machine) (found : Option Map) : Prop :=
  match MapKind.ofNumber? map.info.kindNumber with
  | none   => found = none
  | some _ => ∃ m, found = some m ∧ m.OpenedOn since machine id map

theorem openMap_succeeds (o : h.Sane) (hm : h.machine.maps.get? id = some map) (hs : since ≤ h.machine.nextFd) :
    (openMap id).Succeeds h fun found h' => Finds since id map h'.machine found := by
  refine .bind (.perform o trivial (Machine.answer_mapFdById hm)) fun reply h₁ l₁ hr => ?_
  obtain ⟨hreply, he⟩ := hr
  have o₁ := l₁.sane o
  have ho : h₁.machine.handles.get? h.machine.nextFd = some (.map id) := he ▸ h.machine.get?_openHandle _
  have b : h₁.machine.OnlyOn h.machine.nextFd (.map id) := he ▸ h.machine.onlyOn_openHandle _
  have hm₁ : h₁.machine.maps.get? id = some map := he ▸ hm
  refine .bind (.accept hreply) fun fd h₂ _ hfd => ?_
  obtain ⟨rfl, rfl⟩ := hfd
  refine .bind (Map.infoOrRelease_succeeds _ o₁ (Machine.mapAt_eq ho hm₁)) fun info h₃ l₃ hi => ?_
  subst hi
  have o₃ := l₃.sane o₁
  unfold Finds
  cases hk : MapKind.ofNumber? map.info.kindNumber
  case none =>
    simp only [Option.isNone_none, if_true]
    refine .bind (q := fun _ _ => True) (.note trivial) fun _ h₄ l₄ _ => ?_
    exact .bind (Map.release_succeeds (l₄.sane o₃)) fun _ _ _ _ => .pure rfl
  case some kind =>
    simp only [Option.isNone_some, Bool.false_eq_true, if_false]
    have hw := (o₁.maps id map hm₁).number hk
    refine .bind (Map.ofInfo_succeeds o₃ hk hw) fun m h₄ l₄ hc => .pure ⟨m, rfl, hc.left, ?_⟩
    exact ⟨_, hc.right, hs, b.keeps ((l₃.trans l₄).keeps o₁)⟩

variable {ids : List Nat} {names : List String} {maps : Table String Map} {listed : List ShownMap}

-- What is known is not forgotten.
theorem known_of_quiet (l : h.Leads Quiet h') (o : h.Sane) (hm : ∀ id ∈ ids, h.machine.Has (.map id)) :
    h'.machine.known ids = h.machine.known ids := by
  refine List.filterMap_congr fun id hid => ?_
  obtain ⟨map, hg⟩ := hm id hid
  rw [hg, l.of_quiet o hg]

-- That a table has the maps that are listed.
def Lists (since : Fd) (machine : Machine) (listed : List ShownMap) (maps : Table String Map) : Prop :=
  maps.Collects ShownMap.key (fun u m => m.OpenedOn since machine u.id u.map) listed

theorem Lists.keeps {machine machine' : Machine} (c : Lists since machine listed maps) (k : machine.Keeps machine') :
    Lists since machine' listed maps :=
  c.imp fun _ _ _ _ b => b.keeps k

-- The keys of a table that are names of maps.
def HasNames (maps : Table String Map) (names : List String) : Prop :=
  ∀ name, PlainName name → (maps.contains name ↔ name ∈ names)

-- A map that gets its number into its key is not listed by its name, but one that has the name is there already.
theorem HasNames.insert {m : Map} (hn : HasNames maps names) (name : String) (id : Nat) :
    HasNames (maps.insert (ShownMap.keyBehind names name id) m) (names ++ [name]) := by
  intro name' hp'
  have hg : (maps.insert (ShownMap.keyBehind names name id) m).contains name' ↔
      ShownMap.keyBehind names name id = name' ∨ maps.contains name' := by
    rw [Table.contains, Table.get?_insert]
    split <;> simp_all [Table.contains]
  rw [hg, hn name' hp', List.mem_append, List.mem_singleton, or_comm]
  obtain ⟨hk, _⟩ | ⟨hk, hm⟩ := ShownMap.keyBehind_cases names name id
  case inl => rw [hk, eq_comm]
  case inr =>
    rw [hk, or_iff_left (hp'.ne_numbered).symm]
    exact ⟨.inl, fun h => h.elim (fun h => h) (· ▸ hm)⟩

theorem keyFor_eq {m : Map} (hn : HasNames maps names) (hp : PlainName m.name) (id : Nat) :
    keyFor maps m id = ShownMap.keyBehind names m.name id := by
  simp only [keyFor, ShownMap.keyBehind, hn m.name hp]

-- By induction on the numbers: what was found before stays, and the next map gets its key.
theorem gather_succeeds (o : h.Sane) (hs : since ≤ h.machine.nextFd) (hm : ∀ id ∈ ids, h.machine.Has (.map id))
    (hp : ∀ e ∈ h.machine.known ids, PlainName e.2.info.name) (hn : HasNames maps names)
    (c : Lists since h.machine listed maps) : (gather ids maps).Succeeds h fun maps h' =>
      Lists since h'.machine (listed ++ ShownMap.keyed names (h.machine.known ids)) maps := by
  induction ids generalizing maps names listed h
  case nil => exact .pure (by simpa [Machine.known, ShownMap.keyed] using c)
  case cons id ids ih =>
    obtain ⟨⟨map, hg⟩, hm⟩ := List.forall_mem_cons.mp hm
    refine .bind (.orElseClean (openMap_succeeds o hg hs)) fun found h₁ l₁ hf => ?_
    have o₁ := l₁.sane o
    have k₁ := l₁.keeps o
    have c₁ := c.keeps k₁
    have hk₁ := known_of_quiet l₁ o hm
    have hm₁ : ∀ id ∈ ids, h₁.machine.Has (.map id) := fun id hid => k₁.has (hm id hid)
    unfold Finds at hf
    cases hk : MapKind.ofNumber? map.info.kindNumber <;> simp only [hk] at hf
    case none =>
      rw [Machine.known_cons_of_unknown hg hk] at hp ⊢
      subst hf
      exact hk₁ ▸ ih o₁ (hs.trans k₁.nextFd) hm₁ (hk₁ ▸ hp) hn c₁
    case some kind =>
      rw [Machine.known_cons_of_known hg hk] at hp ⊢
      obtain ⟨hname, hp⟩ := List.forall_mem_cons.mp hp
      obtain ⟨m, rfl, hb⟩ := hf
      have hkey : keyFor maps m id = ShownMap.keyBehind names map.info.name id :=
        hb.copies.name ▸ keyFor_eq hn (hb.copies.name ▸ hname) id
      refine .bind (q := fun _ _ => True) (.modify (replace_leads _ h₁) trivial) fun _ h₂ l₂ _ => ?_
      have k₂ := l₂.keeps o₁
      have hk₂ := known_of_quiet (l₁.trans l₂) o hm
      have c₂ : Lists since h₂.machine (listed ++ [⟨keyFor maps m id, id, map⟩])
        (maps.insert (keyFor maps m id) m) :=
        (c₁.keeps k₂).concat (hb.keeps k₂)
      rw [hkey] at c₂ ⊢
      rw [ShownMap.keyed, List.append_cons, ← hk₂]
      exact ih (l₂.sane o₁) (hs.trans (k₁.nextFd.trans k₂.nextFd))
        (fun id hid => k₂.has (hm₁ id hid)) (hk₂ ▸ hp)
        (hn.insert _ _) c₂

theorem build_succeeds {number : Nat} {refs : List Nat} (ownsHandle : Bool) (o : h.Sane)
    (hs : since ≤ h.machine.nextFd)
    (ho : h.machine.handles.get? fd = some (.program number)) (u : h.machine.Uses number refs)
    (hp : ∀ e ∈ h.machine.known refs.eraseDups, PlainName e.2.info.name) :
    (build fd ownsHandle).Succeeds h fun i h' =>
      Lists since h'.machine (ShownMap.keyed [] (h.machine.known refs.eraseDups)) i.maps := by
  obtain ⟨program, hg, he⟩ := u.program
  refine .bind
    (.perform o trivial (Machine.answer_programInfo (Machine.programAt_eq ho hg))) fun reply h₁ l₁ hr => ?_
  obtain ⟨hreply, hm⟩ := hr
  have o₁ := l₁.sane o
  refine .bind (.accept hreply) fun info h₂ _ hi => ?_
  obtain ⟨rfl, rfl⟩ := hi
  have hm₁ : ∀ id ∈ info.mapIds, h₂.machine.Has (.map id) :=
    fun id hid => hm ▸ u.has id (List.mem_eraseDups.mp (he ▸ hid))
  have hn : HasNames .empty [] := fun _ _ => by simp [Table.contains]
  rw [← hm, ← he] at hp ⊢
  exact .bind (gather_succeeds o₁ (hm ▸ hs) hm₁ hp hn Table.collects_empty) fun maps h₃ _ c => .pure c

end Snapshot

end EbpfManager
