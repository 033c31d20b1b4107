import EbpfManager.Proofs.Elf.Placement
import EbpfManager.Proofs.Elf.Shown

namespace EbpfManager.Elf

-- What is read of the entry before those of the symbols, which is all zeros.
def reservedSymbol : Symbol where
  name      := some ""
  kind      := .other
  inSection := none
  address   := 0
  size      := 0

namespace Draft

variable {d : Draft} {s : DraftSymbol} {position : Nat} {names : List String}

def symbolRecord (d : Draft) (names : List String) (placed : DraftSymbol × Nat) : Bytes :=
  fields [(4, nameOffset names placed.2), (1, infoOf placed.1), (1, 0), (2, indexField (d.place placed.1.number)),
    (8, placed.1.value), (8, placed.1.size)]

def relocationRecord (r : Nat × Nat) : Bytes :=
  fields [(8, r.1), (8, r.2 * Bytes.limit 4 + 1)]

-- Numbers that the field has no room for are taken from the table.
theorem resolveSection_indexField {number : Nat} {extended : Option Nat}
    (h : firstReservedIndex ≤ number → extended = some number) :
    Symbol.resolveSection (indexField number) extended = if number = 0 then none else some number := by
  unfold indexField
  split
  case isTrue hl =>
    have he : number ≠ extendedIndex := Nat.ne_of_lt (hl.trans (by decide))
    by_cases h0 : number = 0
    case pos => rw [h0]; rfl
    case neg => simp [Symbol.resolveSection, hl, he, h0]
  case isFalse hl =>
    have h0 : number ≠ 0 := fun h0 => hl (h0 ▸ by decide)
    simp [Symbol.resolveSection, h (Nat.le_of_not_lt hl), h0]

theorem place_eq_zero {n : Nat} : d.place n = 0 ↔ n = 0 := by
  refine ⟨fun h => Nat.eq_zero_of_add_eq_zero_right h, ?_⟩
  rintro rfl
  rfl

theorem kindOf_infoOf (s : DraftSymbol) :
    Symbol.kindOf (infoOf s) = if s.isFunction then .function else .other := by
  unfold infoOf
  by_cases hf : s.isFunction
  case pos => simp only [hf, if_true]; rfl
  case neg => by_cases h0 : s.number = 0 <;> simp only [hf, h0, if_true, if_false] <;> rfl

theorem infoOf_lt (s : DraftSymbol) : infoOf s < Bytes.limit 1 := by
  unfold infoOf
  split
  case isTrue => decide
  case isFalse => split <;> decide

theorem read?_symbolRecord {extended : Option Nat} (hv : s.value < Bytes.limit 8) (hs : s.size < Bytes.limit 8)
    (hz : '\x00' ∉ s.name.toList) (hn : names[position]? = some s.name)
    (hl : (nameTable names).length ≤ Bytes.limit 4)
    (he : firstReservedIndex ≤ d.place s.number → extended = some (d.place s.number)) :
    Symbol.read? written (some (nameTable names)) (d.symbolRecord names (s, position)) extended =
      some (s.read d.place) := by
  have ho : nameOffset names position < Bytes.limit 4 :=
    (nameOffset_lt (List.getElem?_eq_some_iff.mp hn).fst).trans_le hl
  have hf : written.fields? [4, 1, 1, 2, 8, 8] (d.symbolRecord names (s, position)) =
      some [nameOffset names position, infoOf s, 0, indexField (d.place s.number), s.value, s.size] := by
    refine fields?_eq [(4, nameOffset names position), (1, infoOf s), (1, 0), (2, indexField (d.place s.number)),
      (8, s.value), (8, s.size)] rfl rfl ?_
    simp only [List.forall_mem_cons, List.not_mem_nil, false_implies, implies_true, and_true]
    exact ⟨ho, infoOf_lt s, by decide, indexField_lt _, hv, hs⟩
  have hr := congrArg (Option.bind · Text.decode?) (name?_nameTable hz hn)
  simp only [Option.bind_some, Text.decode?_encode] at hr
  unfold Symbol.read?
  simp only [written] at hf ⊢
  simp only [hf, Option.bind_eq_bind, Option.bind_some, hr, kindOf_infoOf, resolveSection_indexField he, place_eq_zero]
  rfl

theorem read?_reserved (names : List String) (extended : Option Nat) :
    Symbol.read? written (some (nameTable names)) (List.replicate 24 0) extended = some reservedSymbol := by
  have hf : written.fields? [4, 1, 1, 2, 8, 8] (List.replicate 24 0) = some [0, 0, 0, 0, 0, 0] := rfl
  unfold Symbol.read?
  simp only [written] at hf ⊢
  simp only [hf, Option.bind_eq_bind, Option.bind_some, name?_zero]
  rfl

theorem read?_relocationRecord {r : Nat × Nat} (ho : r.1 < Bytes.limit 8) (h0 : r.2 ≠ 0)
    (hs : r.2 < Bytes.limit 4) :
    Relocation.read? written false (relocationRecord r) = some (readRelocation r) := by
  have hr : r.2 * Bytes.limit 4 + 1 < Bytes.limit 8 := by
    simp only [Bytes.limit] at hs ⊢
    omega
  have hf : written.fields? [8, 8] (relocationRecord r) = some [r.1, r.2 * Bytes.limit 4 + 1] := by
    refine fields?_eq [(8, r.1), (8, r.2 * Bytes.limit 4 + 1)] rfl rfl ?_
    simp only [List.forall_mem_cons, List.not_mem_nil, false_implies, implies_true, and_true]
    exact ⟨ho, hr⟩
  have hm : 247 ≠ Format.machineMips := by decide
  have hd : written.relocationSymbol (r.2 * Bytes.limit 4 + 1) = r.2 := by
    simp only [Format.relocationSymbol, written, hm, and_false, if_false, Bytes.limit]
    omega
  unfold Relocation.read?
  refine (congrArg (Option.bind · _) hf).trans ?_
  simp only [Option.bind_some, hd, if_neg h0]
  rfl

end Draft

end EbpfManager.Elf
