import EbpfManager.Elf.Image
import EbpfManager.Proofs.Results
import Mathlib.Algebra.Group.Nat.Defs

namespace EbpfManager

theorem ByteOrder.toNat_lt (order : ByteOrder) (bs : Bytes) : order.toNat bs < Bytes.limit bs.length := by
  cases order
  case little => exact Bytes.toNat_lt bs
  case big    => exact List.length_reverse ▸ Bytes.toNat_lt bs.reverse

namespace Elf

variable {f : Format} {file : Bytes} {image : Image}

theorem Format.fields?_lt {widths numbers : List Nat} {bs : Bytes} (h : f.fields? widths bs = some numbers) :
    List.Forall₂ (fun width n => n < Bytes.limit width) widths numbers := by
  induction widths generalizing numbers bs
  case nil => cases h; exact .nil
  case cons width widths ih =>
    simp only [Format.fields?, Option.bind_eq_bind, Option.bind_eq_some_iff, Option.some_inj, Bytes.slice?_eq_some] at h
    obtain ⟨first, ⟨hl, rfl⟩, rest, hr, rfl⟩ := h
    refine .cons ?_ (ih hr)
    have hlt := f.order.toNat_lt ((bs.drop 0).take width)
    rwa [show ((bs.drop 0).take width).length = width by simp; omega] at hlt

-- Whatever comes of it, if anything does.
def Yields {α : Type} (p : α → Prop) (x : Option α) : Prop :=
  ∀ a ∈ x, p a

theorem Yields.bind {α β : Type} {p : α → Prop} {x : Option β} {next : β → Option α}
    (h : ∀ b, x = some b → Yields p (next b)) : Yields p (x >>= next) := by
  cases x
  case none   => exact fun _ h => by cases h
  case some b => exact h b rfl

theorem Symbol.yields_read? (names : NameTable) (record : Bytes) (extended : Option Nat) :
    Yields (·.address < Bytes.limit 8) (Symbol.read? f names record extended) := by
  unfold Symbol.read?
  split
  case h_1 =>
    refine .bind fun fields hf => ?_
    split
    case h_2 => exact fun _ h => by cases h
    case h_1 =>
      rintro _ ⟨⟩
      have hlt := Format.fields?_lt hf
      simp only [List.forall₂_cons] at hlt
      exact hlt.right.right.right.right.left
  case h_2 =>
    refine .bind fun fields hf => ?_
    split
    case h_2 => exact fun _ h => by cases h
    case h_1 =>
      rintro _ ⟨⟩
      have hlt := Format.fields?_lt hf
      simp only [List.forall₂_cons] at hlt
      exact Nat.lt_trans hlt.right.left (by decide)

theorem Symbol.yields_table? (sections : List SectionHeader) (type : Nat) :
    Yields (fun t => ∀ s ∈ t.2, s.address < Bytes.limit 8) (Symbol.table? f file sections type) := by
  have read {records : List Bytes} {extended : Nat → Option Nat} {names : NameTable} {number : Nat} :
      Yields (fun t => ∀ s ∈ t.2, s.address < Bytes.limit 8) (do
        let symbols ← records.zipIdx.mapM fun r => Symbol.read? f names r.1 (extended r.2)
        some (number, symbols)) := by
    refine .bind fun symbols h => ?_
    rintro _ ⟨⟩ s hs
    obtain ⟨_, _, hr⟩ := exists_of_mem_right (mapM_eq_some.mp h) hs
    exact yields_read? names _ _ s hr
  unfold Symbol.table?
  split
  case h_1 => rintro _ ⟨⟩ s hs; cases hs
  case h_2 header number _ =>
    refine .bind fun records _ => ?_
    split
    case isTrue => exact .bind fun names _ => .bind fun tables _ => read
    case isFalse =>
      refine .bind fun strings _ => ?_
      split <;> exact .bind fun names _ => .bind fun tables _ => read

-- What is known of a file with less than 2^63 octets.
structure Image.Bounded (image : Image) : Prop where
  address {s : Symbol} : s ∈ image.symbols → s.address < Bytes.limit 8
  contents {s : Section} {contents : Bytes} : s ∈ image.sections → s.contents = some contents →
    contents.length < 2 ^ 63

theorem SectionHeader.length_contents?_le {s : SectionHeader} {contents : Bytes}
    (h : s.contents? file = some contents) : contents.length ≤ file.length := by
  unfold SectionHeader.contents? at h
  split at h
  case isTrue  => cases h; exact Nat.zero_le _
  case isFalse =>
    obtain ⟨_, rfl⟩ := Bytes.slice?_eq_some.mp h
    rw [List.length_take, List.length_drop]
    omega

theorem Image.bounded (h : Image.read? file = some image) (hf : file.length < 2 ^ 63) : image.Bounded := by
  have tables {f : Format} {headers : List SectionHeader}
      {section_ : Nat × List Symbol → SectionHeader × Nat → Section}
      (hc : ∀ t s, (section_ t s).contents = s.1.contents? file) : Yields Image.Bounded (do
        let t ← Symbol.table? f file headers typeSymbolTable
        let _ ← Symbol.table? f file headers typeDynamicSymbols
        if !Relocation.targetsSound t.1 headers then do
          none
          some ⟨f.order, headers.zipIdx.map (section_ t), t.2⟩
        else some ⟨f.order, headers.zipIdx.map (section_ t), t.2⟩) := by
    refine .bind fun t ht => .bind fun _ _ => ?_
    split
    case isTrue  => exact .bind fun _ h => by cases h
    case isFalse =>
      rintro _ ⟨⟩
      refine ⟨fun hs => Symbol.yields_table? _ _ t ht _ (List.mem_of_mem_drop hs), fun hs h => ?_⟩
      obtain ⟨s, _, rfl⟩ := List.mem_map.mp hs
      exact Nat.lt_of_le_of_lt (SectionHeader.length_contents?_le ((hc t s).symm.trans h)) hf
  have y : Yields Image.Bounded (Image.read? file) := by
    unfold Image.read?
    refine .bind fun header _ => ?_
    dsimp only
    split
    case isTrue  => exact .bind fun _ h => by cases h
    case isFalse =>
      refine .bind fun headers _ => ?_
      split
      case isTrue  => exact .bind fun names _ => tables fun _ _ => rfl
      case isFalse =>
        refine .bind fun _ _ => .bind fun strings _ => ?_
        split <;> exact .bind fun names _ => tables fun _ _ => rfl
  exact y image h

end Elf

end EbpfManager
