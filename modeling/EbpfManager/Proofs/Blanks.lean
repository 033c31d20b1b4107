import EbpfManager.Proofs.Numerals
import EbpfManager.Text.Blank
import Mathlib.Data.List.TakeWhile

namespace EbpfManager.Text

variable {lead body trail : List Char}

theorem dropWhile_append_eq (hl : ∀ c ∈ lead, isBlank c) (hb : ∀ c ∈ body, isBlank c = false) :
    (lead ++ body).dropWhile isBlank = body := by
  rw [List.dropWhile_append_of_pos hl, List.dropWhile_eq_self_iff]
  intro hn
  simpa using hb _ (List.getElem_mem hn)

theorem trim_append (hl : ∀ c ∈ lead, isBlank c) (hb : ∀ c ∈ body, isBlank c = false)
    (ht : ∀ c ∈ trail, isBlank c) : trim (lead ++ body ++ trail) = body := by
  rw [trim, List.dropWhile_append, dropWhile_append_eq hl hb]
  split
  case isTrue hn =>
    rw [List.isEmpty_iff.mp hn, List.dropWhile_eq_nil_iff.mpr ht]
    rfl
  case isFalse =>
    rw [trimEnd, List.reverse_append, dropWhile_append_eq (by simpa using ht) (by simpa using hb),
      List.reverse_reverse]

-- What is taken away is white space.
theorem exists_append_trim (text : List Char) : ∃ lead trail, (∀ c ∈ lead, isBlank c) ∧
    (∀ c ∈ trail, isBlank c) ∧
    text = lead ++ trim text ++ trail := by
  refine ⟨text.takeWhile isBlank, ((text.dropWhile isBlank).reverse.takeWhile isBlank).reverse,
    fun c hc => List.mem_takeWhile_imp hc, fun c hc => List.mem_takeWhile_imp (List.mem_reverse.mp hc), ?_⟩
  rw [trim, trimEnd, List.append_assoc, ← List.reverse_append, List.takeWhile_append_dropWhile, List.reverse_reverse,
    List.takeWhile_append_dropWhile]

theorem isBlank_of_isDigit {c : Char} (hc : c.isDigit) : isBlank c = false := by
  obtain ⟨hl, hu⟩ := digit_bounds hc
  simp only [isBlank, Bool.or_eq_false_iff, Bool.and_eq_false_iff, decide_eq_false_iff_not, beq_eq_false_iff_ne]
  omega

end EbpfManager.Text
