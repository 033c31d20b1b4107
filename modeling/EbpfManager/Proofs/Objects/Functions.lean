import EbpfManager.Proofs.Objects.Layout

namespace EbpfManager.Object

open Elf

-- A function with a name.
def IsFunctionIn (number : Nat) (s : Symbol) : Prop :=
  s.kind = .function ∧ s.inSection = some number ∧ s.name.any (· ≠ "")

instance (number : Nat) (s : Symbol) : Decidable (IsFunctionIn number s) :=
  inferInstanceAs (Decidable (_ ∧ _))

def functionsIn (image : Image) (number : Nat) : List Symbol :=
  image.symbols.filter (IsFunctionIn number)

-- Where a part ends that begins at `address`. `addresses` are those of all parts.
def stopAmong (addresses : List Nat) (length address size : Nat) : Nat :=
  if size = 0 then (addresses.filter (address < ·)).min?.getD length else address + size

-- The range of a function in a section of `length` octets.
def rangeOf (functions : List Symbol) (length : Nat) (f : Symbol) : Range where
  start := f.address
  stop  := stopAmong (functions.map Symbol.address) length f.address f.size
  name  := f.name.getD ""

variable {image : Image} {number length address size : Nat} {ms : List Mark}

theorem min?_congr {as bs : List Nat} (h : ∀ a, a ∈ as ↔ a ∈ bs) : as.min? = bs.min? := by
  cases hb : bs.min?
  case none =>
    have hb := List.min?_eq_none_iff.mp hb
    refine List.min?_eq_none_iff.mpr <| List.eq_nil_iff_forall_not_mem.mpr fun a ha => ?_
    exact List.not_mem_nil (hb ▸ (h a).mp ha)
  case some a =>
    obtain ⟨ha, hle⟩ := List.min?_eq_some_iff.mp hb
    exact List.min?_eq_some_iff.mpr ⟨(h a).mpr ha, fun b hb => hle b ((h b).mp hb)⟩

theorem stopAmong_congr {as bs : List Nat} (h : ∀ a, a ∈ as ↔ a ∈ bs) :
    stopAmong as length address size = stopAmong bs length address size := by
  have hm : (as.filter (address < ·)).min? = (bs.filter (address < ·)).min? :=
    min?_congr fun a => by rw [List.mem_filter, List.mem_filter, h]
  rw [stopAmong, stopAmong, hm]

theorem min?_of_pairwise {as : List Nat} (h : as.Pairwise (· < ·)) : as.min? = as.head? := by
  cases as
  case nil => rfl
  case cons a as =>
    obtain ⟨ha, _⟩ := List.pairwise_cons.mp h
    refine List.min?_eq_some_iff.mpr ⟨List.mem_cons_self, fun b hb => ?_⟩
    cases List.mem_cons.mp hb
    case inl he => exact Nat.le_of_eq he.symm
    case inr hb => exact Nat.le_of_lt (ha b hb)

theorem firstsAfter_eq_self {last : Nat} (hl : ∀ m ∈ ms, last < m.address)
    (hs : ms.Pairwise (·.address < ·.address)) : firstsAfter last ms = ms := by
  induction ms generalizing last
  case nil => rfl
  case cons m rest ih =>
    obtain ⟨hm, hs⟩ := List.pairwise_cons.mp hs
    have hne : m.address ≠ last := Nat.ne_of_gt (hl m List.mem_cons_self)
    rw [firstsAfter, if_neg hne, ih hm hs]

theorem firsts_eq_self (hs : ms.Pairwise (·.address < ·.address)) : firsts ms = ms := by
  cases ms
  case nil => rfl
  case cons m rest =>
    obtain ⟨hm, hs⟩ := List.pairwise_cons.mp hs
    rw [firsts, firstsAfter_eq_self hm hs]

theorem beginnings_function : beginnings image.symbols number (some .function) = functionsIn image number := by
  refine List.filter_congr fun s _ => decide_eq_decide.mpr ?_
  simp only [Begins, IsFunctionIn, Option.mem_some_iff, forall_eq']
  grind

theorem marks_perm (hd : (functionsIn image number).Pairwise (·.address ≠ ·.address)) :
    (marks image.symbols number (some .function)).Perm ((functionsIn image number).map markOf) := by
  have hp := List.mergeSort_perm ((functionsIn image number).map markOf) (·.address ≤ ·.address)
  have hne : (((functionsIn image number).map markOf).mergeSort (·.address ≤ ·.address)).Pairwise
      (·.address ≠ ·.address) :=
    (hp.pairwise_iff Ne.symm).mpr <| List.pairwise_map.mpr hd
  have hs := pairwise_mergeSort_key Mark.address ((functionsIn image number).map markOf)
  have hs := (hs.and hne).imp fun h => Nat.lt_of_le_of_ne h.left h.right
  rw [marks, filterMap_mark?, beginnings_function, firsts_eq_self hs]
  exact hp

theorem rangesOf_eq_map {rs : List Range} (hs : ms.Pairwise (·.address < ·.address))
    (h : rangesOf length ms = .ok rs) : rs = ms.map fun m =>
      ⟨m.address, stopAmong (ms.map Mark.address) length m.address m.size, m.name⟩ := by
  induction ms generalizing rs
  case nil =>
    cases h
    rfl
  case cons m rest ih =>
    obtain ⟨hm, hs⟩ := List.pairwise_cons.mp hs
    obtain ⟨_, rs', h, he⟩ := rangesOf_cons_eq_ok.mp h
    have hlt : ∀ a ∈ rest.map Mark.address, m.address < a := by simpa using hm
    -- The next mark is the least address above, since the marks go up.
    have hstop : m.stop length rest =
        stopAmong (m.address :: rest.map Mark.address) length m.address m.size := by
      have hf : (rest.map Mark.address).filter (m.address < ·) = rest.map Mark.address :=
        List.filter_eq_self.mpr fun a ha => by simpa using hlt a ha
      have hp : (rest.map Mark.address).Pairwise (· < ·) := List.pairwise_map.mpr hs
      simp [Mark.stop, stopAmong, hf, min?_of_pairwise hp]
    rw [he, List.map_cons, List.map_cons, ← hstop, ih hs h]
    congr 1
    -- To the marks behind it makes no difference that there is one before.
    refine List.map_congr_left fun m' hm' => ?_
    have hle : ¬m'.address < m.address := Nat.lt_asymm (hm m' hm')
    simp [stopAmong, hle]

-- The ranges are made of sorted marks, and the functions stand in any order.
theorem ranges_perm {rs : List Range}
    (hd : (functionsIn image number).Pairwise (·.address ≠ ·.address))
    (h : ranges image.symbols number length (some .function) = .ok rs) :
    rs.Perm ((functionsIn image number).map (rangeOf (functionsIn image number) length)) := by
  have hm := marks_perm hd
  rw [rangesOf_eq_map marks_pairwise h]
  refine (hm.map _).trans ?_
  rw [List.map_map]
  refine .of_eq <| List.map_congr_left fun f _ => ?_
  have ha := (hm.map Mark.address).trans (.of_eq List.map_map)
  simp only [Function.comp, markOf, rangeOf]
  rw [stopAmong_congr fun _ => ha.mem_iff]
  rfl

end EbpfManager.Object
