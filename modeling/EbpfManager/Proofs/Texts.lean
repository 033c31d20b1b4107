import EbpfManager.Proofs.Results
import EbpfManager.Text.Utf8
import Mathlib.Data.List.TakeWhile

namespace EbpfManager.Text

-- A text that is there and can be handed over to the kernel.
def Proper (text : String) : Prop :=
  text ≠ "" ∧ '\x00' ∉ text.toList

def IsCharacter (n : Nat) : Prop :=
  n ≠ 0 ∧ n.isValidChar

theorem IsCharacter.ofNat_ne {n : Nat} (h : IsCharacter n) : Char.ofNat n ≠ '\x00' := by
  intro he
  have hn : (Char.ofNat n).toNat = n := by
    rw [Char.ofNat, dif_pos h.right]
    rfl
  exact h.left (hn ▸ he ▸ rfl)

-- That all ways to complete a character come to one.
def Leads : (more low high bits : Nat) → Prop
  | 0, low, high, bits => ∀ b, low ≤ b → b ≤ high → IsCharacter (bits * 64 + (b - 0x80))
  | more + 1, low, high, bits =>
    ∀ b, low ≤ b → b ≤ high → Leads more 0x80 0xBF (bits * 64 + (b - 0x80))

def Position.Sound : Position → Prop
  | .fresh                     => True
  | .inside more low high bits => Leads more low high bits

theorem isCharacter_of_lt {n : Nat} (h0 : n ≠ 0) (h : n < 0xD800) : IsCharacter n :=
  ⟨h0, .inl h⟩

-- One case for each kind of lead octet. What follows an octet that begins a longer character can only
-- complete numbers that are characters and not zero: this is what the bounds are for.
theorem start_sound {b : Nat} (hb : b ≠ 0) : some '\x00' ∉ (start b).1 ∧ (start b).2.Sound := by
  unfold start
  split
  case isTrue h =>
    have hc : IsCharacter b := isCharacter_of_lt hb (by omega)
    exact ⟨by simp [hc.ofNat_ne.symm], trivial⟩
  split
  case isTrue =>
    refine ⟨by simp, fun b' _ _ => isCharacter_of_lt ?_ ?_⟩ <;> omega
  split
  case isTrue =>
    refine ⟨by simp, fun b' _ _ b'' _ _ => isCharacter_of_lt ?_ ?_⟩ <;> omega
  split
  case isTrue =>
    refine ⟨by simp, fun b' _ _ b'' _ _ => isCharacter_of_lt ?_ ?_⟩ <;> omega
  split
  case isTrue =>
    refine ⟨by simp, fun b' _ _ b'' _ _ => ⟨?_, ?_⟩⟩
    case refine_1 => omega
    case refine_2 => unfold Nat.isValidChar; omega
  split
  case isTrue =>
    refine ⟨by simp, fun b' _ _ b'' _ _ b₃ _ _ => ⟨?_, ?_⟩⟩
    case refine_1 => omega
    case refine_2 => unfold Nat.isValidChar; omega
  split
  case isTrue =>
    refine ⟨by simp, fun b' _ _ b'' _ _ b₃ _ _ => ⟨?_, ?_⟩⟩
    case refine_1 => omega
    case refine_2 => unfold Nat.isValidChar; omega
  split
  case isTrue =>
    refine ⟨by simp, fun b' _ _ b'' _ _ b₃ _ _ => ⟨?_, ?_⟩⟩
    case refine_1 => omega
    case refine_2 => unfold Nat.isValidChar; omega
  exact ⟨by simp, trivial⟩

theorem step_sound {p : Position} {b : Nat} (hp : p.Sound) (hb : b ≠ 0) :
    some '\x00' ∉ (step p b).1 ∧ (step p b).2.Sound := by
  cases p
  case fresh => exact start_sound hb
  case inside more low high bits =>
    simp only [step]
    split
    case isTrue h =>
      cases more
      case zero => exact ⟨by simp [(hp b h.left h.right).ofNat_ne.symm], trivial⟩
      case succ more => exact ⟨by simp, hp b h.left h.right⟩
    case isFalse =>
      obtain ⟨hn, hs⟩ := start_sound hb
      exact ⟨by simpa using hn, hs⟩

-- By induction on the octets, from any position where only characters can be completed.
theorem zero_not_mem_pieces {p : Position} {bs : Bytes} (hp : p.Sound) (h0 : 0 ∉ bs) :
    some '\x00' ∉ pieces p bs := by
  induction bs generalizing p
  case nil => cases p <;> simp [pieces]
  case cons b bs ih =>
    have hb : b.toNat ≠ 0 := by
      intro he
      exact h0 (List.mem_cons.mpr (.inl (UInt8.toNat_inj.mp he).symm))
    obtain ⟨hn, hs⟩ := step_sound hp hb
    have hr := ih hs fun h => h0 (List.mem_cons_of_mem _ h)
    cases p <;> simpa [pieces] using ⟨hn, hr⟩

theorem zero_not_mem_of_decode? {bs : Bytes} {text : String} (h0 : 0 ∉ bs)
    (h : decode? bs = some text) : '\x00' ∉ text.toList := by
  obtain ⟨cs, hm, he⟩ := Option.map_eq_some_iff.mp h
  intro hz
  rw [← he, String.toList_ofList] at hz
  obtain ⟨p, hp, hc⟩ := exists_of_mem_right (mapM_eq_some.mp hm) hz
  have hn := zero_not_mem_pieces (p := .fresh) trivial h0
  exact hn (hc ▸ hp)

theorem zero_not_mem_of_terminated? {bs bs' : Bytes} (h : bs.terminated? = some bs') : 0 ∉ bs' := by
  unfold Bytes.terminated? at h
  split at h <;> cases h
  intro h0
  simpa using List.mem_takeWhile_imp h0

theorem zero_not_mem_of_ofTerminated? {bs : Bytes} {text : String}
    (h : ofTerminated? bs = some text) : '\x00' ∉ text.toList := by
  obtain ⟨bs', ht, hd⟩ := Option.bind_eq_some_iff.mp h
  exact zero_not_mem_of_decode? (zero_not_mem_of_terminated? ht) hd

end EbpfManager.Text
