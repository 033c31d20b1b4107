import EbpfManager.Object.Layout
import EbpfManager.Proofs.Results
import Mathlib.Data.List.Sort

namespace EbpfManager.Object

open Elf

-- A symbol that begins a range. It has a name, and the kind that is asked for, if one is.
def Begins (number : Nat) (kind : Option SymbolKind) (s : Symbol) : Prop :=
  s.inSection = some number ∧ s.kind ≠ .sectionStart ∧ (∀ k ∈ kind, s.kind = k) ∧ s.name.any (· ≠ "")

instance (number : Nat) (kind : Option SymbolKind) (s : Symbol) : Decidable (Begins number kind s) :=
  inferInstanceAs (Decidable (_ ∧ _))

-- The symbols that begin the ranges of a section, in the order of the table.
def beginnings (symbols : List Symbol) (number : Nat) (kind : Option SymbolKind) : List Symbol :=
  symbols.filter (Begins number kind)

def markOf (s : Symbol) : Mark := ⟨s.address, s.size, s.name.getD ""⟩

theorem contentsOf_eq_ok {s : Section} {contents : Bytes} :
    contentsOf s = .ok contents ↔ s.contents = some contents := by
  cases hs : s.contents <;> simp [contentsOf, hs]

theorem firstsAfter_sublist (last : Nat) (ms : List Mark) : (firstsAfter last ms).Sublist ms := by
  induction ms generalizing last <;> simp only [firstsAfter]
  case nil => exact .slnil
  case cons m rest ih =>
    split
    case isTrue => exact (ih _).cons m
    case isFalse => exact (ih _).cons_cons m

theorem firsts_sublist (ms : List Mark) : (firsts ms).Sublist ms := by
  cases ms
  case nil => exact .slnil
  case cons m rest => exact (firstsAfter_sublist _ rest).cons_cons m

-- Neighbours that do not go down go up once there is one at each address.
theorem firstsAfter_pairwise {last : Nat} {ms : List Mark} (hl : ∀ m ∈ ms, last ≤ m.address)
    (hs : ms.Pairwise (·.address ≤ ·.address)) :
    (∀ m ∈ firstsAfter last ms, last < m.address) ∧
      (firstsAfter last ms).Pairwise (·.address < ·.address) := by
  induction ms generalizing last <;> simp only [firstsAfter]
  case nil => simp
  case cons m rest ih =>
    obtain ⟨hm, hs⟩ := List.pairwise_cons.mp hs
    split
    case isTrue he => exact ih (he ▸ hm) hs
    case isFalse he =>
      have hlt : last < m.address := Nat.lt_of_le_of_ne (hl m List.mem_cons_self) (Ne.symm he)
      obtain ⟨hr, hp⟩ := ih hm hs
      refine ⟨fun m' hm' => ?_, List.pairwise_cons.mpr ⟨hr, hp⟩⟩
      cases List.mem_cons.mp hm'
      case inl he => exact he ▸ hlt
      case inr hm' => exact Nat.lt_trans hlt (hr m' hm')

theorem pairwise_mergeSort_key {α : Type} (key : α → Nat) (as : List α) :
    (as.mergeSort (key · ≤ key ·)).Pairwise (key · ≤ key ·) := by
  refine (List.pairwise_mergeSort ?_ ?_ as).imp ?_
  case refine_1 => intro a b c hab hbc; simp at *; omega
  case refine_2 => intro a b; simp; omega
  case refine_3 => intro a b h; simpa using h

-- Of elements with one key the first stays in front, so that sorting puts each where inserting does.
theorem mergeSort_key_eq_insertionSort {α : Type} (key : α → Nat) (as : List α) :
    as.mergeSort (key · ≤ key ·) = as.insertionSort (key · ≤ key ·) := by
  induction as
  case nil => exact List.mergeSort_nil
  case cons a as ih =>
    obtain ⟨before, after, hs, hr, hb⟩ := @List.mergeSort_cons α (key · ≤ key ·)
      (fun a b c => by simp; omega) (fun a b => by simp; omega) a as
    have hp : (before ++ a :: after).Pairwise (key · ≤ key ·) := hs ▸ pairwise_mergeSort_key key (a :: as)
    have ha : ∀ b ∈ after, key a ≤ key b :=
      (List.pairwise_cons.mp (List.pairwise_append.mp hp).right.left).left
    have hb : ∀ b ∈ before, decide ¬key a ≤ key b := by simpa using hb
    have ht : after.takeWhile (fun b => decide ¬key a ≤ key b) = [] := by
      cases after
      case nil          => rfl
      case cons b after => simp [ha b List.mem_cons_self]
    have hd : after.dropWhile (fun b => decide ¬key a ≤ key b) = after := by
      cases after
      case nil          => rfl
      case cons b after => simp [ha b List.mem_cons_self]
    rw [hs, List.insertionSort_cons, ← ih, hr, List.orderedInsert_eq_take_drop,
      List.takeWhile_append_of_pos hb, List.dropWhile_append_of_pos hb, ht, hd, List.append_nil]

section

variable {symbols : List Symbol} {number length : Nat} {kind : Option SymbolKind}

theorem marks_pairwise :
    (marks symbols number kind).Pairwise (·.address < ·.address) := by
  have hs := pairwise_mergeSort_key Mark.address (symbols.filterMap (mark? number kind))
  unfold marks
  generalize (symbols.filterMap (mark? number kind)).mergeSort
    (·.address ≤ ·.address) = ms at hs ⊢
  cases ms
  case nil => exact .nil
  case cons m rest =>
    obtain ⟨hm, hs⟩ := List.pairwise_cons.mp hs
    exact List.pairwise_cons.mpr (firstsAfter_pairwise hm hs)

theorem exists_of_mem_marks {m : Mark} (h : m ∈ marks symbols number kind) :
    ∃ s ∈ symbols, mark? number kind s = some m := by
  have h := (firsts_sublist _).subset h
  exact List.mem_filterMap.mp <| (List.mergeSort_perm ..).mem_iff.mp h

theorem mark?_eq_some {s : Symbol} {m : Mark} :
    mark? number kind s = some m ↔ s.name = some m.name ∧ s.inSection = some number ∧
      s.kind ≠ .sectionStart ∧ (∀ k ∈ kind, s.kind = k) ∧ m.name ≠ "" ∧
      m.address = s.address ∧ m.size = s.size := by
  obtain ⟨address, size, name⟩ := m
  simp only [mark?, Option.bind_eq_bind, Option.bind_eq_some_iff, Option.ite_none_right_eq_some]
  grind

theorem mark?_eq_ite (s : Symbol) :
    mark? number kind s = if Begins number kind s then some (markOf s) else none := by
  cases hn : s.name
  case none      => simp [mark?, Begins, hn]
  case some name => simp [mark?, Begins, hn, markOf]

theorem filterMap_mark? (symbols : List Symbol) :
    symbols.filterMap (mark? number kind) = (beginnings symbols number kind).map markOf := by
  induction symbols
  case nil => rfl
  case cons s symbols ih =>
    rw [List.filterMap_cons, mark?_eq_ite, ih, beginnings]
    by_cases hs : Begins number kind s <;> simp [hs, beginnings]

end

-- Where the part of a section ends that begins at a mark: `rest` are the marks behind it.
def Mark.stop (length : Nat) (m : Mark) (rest : List Mark) : Nat :=
  if m.size = 0 then (rest.head?.map Mark.address).getD length else m.address + m.size

theorem rangesOf_cons_eq_ok {length : Nat} {m : Mark} {rest : List Mark} {ranges : List Range} :
    rangesOf length (m :: rest) = .ok ranges ↔
      m.stop length rest < Bytes.limit 8 ∧ ∃ ranges', rangesOf length rest = .ok ranges' ∧
        ranges = ⟨m.address, m.stop length rest, m.name⟩ :: ranges' := by
  rw [rangesOf, ← Mark.stop]
  split
  case isTrue h =>
    simp only [h, true_and, bind_eq_ok, Except.ok.injEq]
    simp only [eq_comm]
  case isFalse h => simp [h]

theorem Mark.stop_lt_iff {length : Nat} {m : Mark} {rest : List Mark} (hl : length < Bytes.limit 8)
    (hm : ∀ m' ∈ m :: rest, m'.address < Bytes.limit 8) :
    m.stop length rest < Bytes.limit 8 ↔ m.address + m.size < Bytes.limit 8 := by
  unfold Mark.stop
  split
  case isFalse => rfl
  case isTrue h0 =>
    refine iff_of_true ?_ (h0 ▸ hm m List.mem_cons_self)
    cases rest
    case nil       => exact hl
    case cons m' _ => exact hm m' (by simp)

-- The only thing that can go wrong is that a mark has a size that leads behind the last address.
theorem rangesOf_eq_error {length : Nat} {ms : List Mark} {e : FormatError} (hl : length < Bytes.limit 8)
    (hm : ∀ m ∈ ms, m.address < Bytes.limit 8) : rangesOf length ms = .error e ↔
      e = .addressOverflow ∧ ∃ m ∈ ms, Bytes.limit 8 ≤ m.address + m.size := by
  induction ms
  case nil => simp [rangesOf]
  case cons m rest ih =>
    have ih := ih fun m hm' => hm m (List.mem_cons_of_mem _ hm')
    have hs := Mark.stop_lt_iff hl hm
    rw [rangesOf, ← Mark.stop, List.exists_mem_cons_iff]
    split
    case isTrue h =>
      have hfits : ¬Bytes.limit 8 ≤ m.address + m.size := Nat.not_le.mpr (hs.mp h)
      simp only [hfits, false_or, ← ih]
      cases rangesOf length rest <;> simp [bind, Except.bind]
    case isFalse h =>
      have hle : Bytes.limit 8 ≤ m.address + m.size := Nat.not_lt.mp fun h' => h (hs.mpr h')
      simp [hle, eq_comm]

theorem exists_of_mem_rangesOf {length : Nat} {ms : List Mark} {ranges : List Range} {r : Range}
    (h : rangesOf length ms = .ok ranges) (hr : r ∈ ranges) :
    ∃ m ∈ ms, m.address = r.start ∧ m.name = r.name := by
  induction ms generalizing ranges
  case nil => cases h; cases hr
  case cons m rest ih =>
    obtain ⟨_, ranges', h', he⟩ := rangesOf_cons_eq_ok.mp h
    cases List.mem_cons.mp (he ▸ hr)
    case inl he => exact ⟨m, List.mem_cons_self, he ▸ rfl, he ▸ rfl⟩
    case inr hr =>
      obtain ⟨m, hm, h⟩ := ih h' hr
      exact ⟨m, List.mem_cons_of_mem _ hm, h⟩

end EbpfManager.Object
