import EbpfManager.Proofs.Elf.Tables
import EbpfManager.Proofs.Linking.Instructions
import EbpfManager.Proofs.Syscall.Blocks
import EbpfManager.Syscall.Dialogue

namespace EbpfManager

theorem Text.zero_mem_encode_iff {text : String} : 0 ∈ encode text ↔ '\x00' ∈ text.toList := by
  constructor
  case mp  => exact fun h => by_contra fun hn => zero_not_mem_encode hn h
  case mpr => exact fun h => List.mem_flatMap.mpr ⟨'\x00', h, by decide⟩

namespace Instruction

variable {bs : Bytes} {i : Instruction}

theorem toBytes_of_ofBytes? (hl : bs.length = size) (h : ofBytes? bs = some i) : i.toBytes = bs := by
  match bs, hl with
  | [code, registers, o₀, o₁, i₀, i₁, i₂, i₃], _ =>
    cases h
    have ho := Bytes.ofInt_toInt [o₀, o₁]
    have hi := Bytes.ofInt_toInt [i₀, i₁, i₂, i₃]
    exact congrArg (code :: registers :: ·) (congrArg₂ (· ++ ·) ho hi)

end Instruction

namespace Syscall

variable {pieces : List Bytes} {piece code : Bytes} {start width : Nat}

theorem field_flatten (i : Nat) (h : pieces[i]? = some piece) (hs : start = ((pieces.take i).map List.length).sum)
    (hw : width = piece.length) : field pieces.flatten start width = piece := by
  refine field_of_eq (pieces.take i).flatten (pieces.drop (i + 1)).flatten ?_ ?_ hw
  case refine_1 =>
    rw [List.append_assoc, ← List.flatten_cons, ← List.flatten_append]
    exact congrArg List.flatten (eq_take_append_cons h)
  case refine_2 => rw [List.length_flatten, hs]

theorem number_flatten {n : Nat} (i : Nat) (h : pieces[i]? = some (word n))
    (hs : start = ((pieces.take i).map List.length).sum) (hn : n < 2 ^ 32) : number pieces.flatten start 4 = n := by
  rw [number, field_flatten i h hs length_word.symm, toNat_word, Nat.mod_eq_of_lt hn]

theorem length_objectName (name : String) : (objectName name).length = nameSize := by
  rw [objectName, Bytes.length_overlay, List.length_replicate]

-- A name that is not too long is followed by zeros, and of a longer one there is the beginning.
theorem objectName_eq (name : String) : objectName name = (Text.encode name).take (nameSize - 1) ++
    List.replicate (nameSize - ((Text.encode name).take (nameSize - 1)).length) 0 := by
  have hl : ((Text.encode name).take (nameSize - 1)).length ≤ nameSize := (List.length_take_le ..).trans (by decide)
  rw [objectName, Bytes.overlay, List.length_replicate, List.drop_replicate, List.take_of_length_le hl]

-- By induction on the number of instructions.
theorem instructions_spells (h : code.length % Instruction.size = 0) :
    (instructions code).flatMap Instruction.toBytes = code ∧
      (instructions code).length = code.length / Instruction.size := by
  obtain ⟨count, hc⟩ := Nat.dvd_of_mod_eq_zero h
  have hd : code.length / Instruction.size = count := by
    rw [hc, Nat.mul_div_cancel_left _ (by decide)]
  rw [instructions, Bytes.chunks, hd]
  clear h hd
  induction count generalizing code
  case zero =>
    rw [List.eq_nil_of_length_eq_zero hc]
    exact ⟨rfl, rfl⟩
  case succ count ih =>
    rw [Nat.mul_succ] at hc
    have hl : (code.take Instruction.size).length = Instruction.size := List.length_take_of_le (by omega)
    obtain ⟨i, hi⟩ := Linking.exists_ofBytes? (Nat.le_of_eq hl.symm)
    have hd : (code.drop Instruction.size).length = Instruction.size * count := by
      rw [List.length_drop]
      omega
    obtain ⟨hrest, hn⟩ := ih hd
    rw [Bytes.pieces, List.filterMap_cons_some hi, List.flatMap_cons, hrest, Instruction.toBytes_of_ofBytes? hl hi,
      List.take_append_drop, List.length_cons, hn]
    exact ⟨rfl, rfl⟩

-- The block and the memory of a call about a program. A log without any room is none.
structure HandsOver (call : Syscall) (a : ProgramAttributes) (log : Option LogBuffer) : Prop where
  command       : call.command = 5
  length        : call.attributes.length = 72
  kind          : number call.attributes 0 4 = a.kind.number
  count         : a.code.length / Instruction.size < 2 ^ 32 →
    number call.attributes 4 4 * Instruction.size = a.code.length
  logLevel      : number call.attributes 24 4 = if log.any (·.size ≠ 0) then 1 else 0
  logSize       : ∀ buffer, log = some buffer → buffer.size < 2 ^ 32 → number call.attributes 28 4 = buffer.size
  kernelVersion : number call.attributes 40 4 = a.kernelVersion.toNat
  name          : field call.attributes 48 nameSize = (Text.encode a.name).take (nameSize - 1) ++
    List.replicate (nameSize - ((Text.encode a.name).take (nameSize - 1)).length) 0
  attachType    : number call.attributes 68 4 = a.kind.expectedAttachType
  memory        : ∃ code license, call.memory = .program code license (log.any (·.size ≠ 0)) ∧
    code.flatMap Instruction.toBytes = a.code ∧ Text.terminated? a.license = some (license ++ [0])

-- The block field by field.
theorem attributes_programLoad (a : ProgramAttributes) (room : Nat) : (programLoad a room).attributes =
    [word a.kind.number, word (instructions a.code).length, address, address, word (if room = 0 then 0 else 1),
      word room, address, word a.kernelVersion.toNat, word 0, objectName a.name, word 0,
      word a.kind.expectedAttachType].flatten := by
  simp [programLoad]

theorem handsOver_programLoad {a : ProgramAttributes} (log : Option LogBuffer)
    (hc : a.code.length % Instruction.size = 0) (hl : 0 ∉ Text.encode a.license) :
    (programLoad a ((log.map LogBuffer.size).getD 0)).HandsOver a log := by
  obtain ⟨hcode, hcount⟩ := instructions_spells hc
  have hlog : log.any (·.size ≠ 0) = decide ((log.map LogBuffer.size).getD 0 ≠ 0) := by
    cases log
    case none   => rfl
    case some _ => rfl
  constructor
  case command => rfl
  case length => simp [attributes_programLoad, length_word, length_objectName, address, nameSize]
  case kind =>
    rw [attributes_programLoad]
    exact number_flatten 0 rfl rfl (by cases a.kind <;> decide)
  case count =>
    intro hn
    rw [← hcount] at hn
    rw [attributes_programLoad]
    refine (congrArg (· * Instruction.size) (number_flatten 1 rfl rfl hn)).trans ?_
    rw [hcount, Nat.div_mul_cancel (Nat.dvd_of_mod_eq_zero hc)]
  case logLevel =>
    rw [attributes_programLoad, hlog]
    simp only [decide_eq_true_eq, ite_not]
    exact number_flatten 4 rfl rfl (by split <;> decide)
  case logSize =>
    rintro buffer rfl hs
    rw [attributes_programLoad]
    exact number_flatten 5 rfl rfl hs
  case kernelVersion =>
    rw [attributes_programLoad]
    exact number_flatten 7 rfl rfl a.kernelVersion.toNat_lt
  case name =>
    rw [attributes_programLoad, ← objectName_eq]
    exact field_flatten 9 rfl rfl (length_objectName a.name).symm
  case attachType =>
    rw [attributes_programLoad]
    refine number_flatten 11 rfl ?_ (by cases a.kind <;> decide)
    simp [length_word, length_objectName, address, nameSize]
  case memory =>
    rw [hlog]
    exact ⟨_, _, rfl, hcode, if_neg hl⟩

end Syscall

namespace Dialogue

open Syscall

theorem passable_eq (text : String) : passable text = !decide ('\x00' ∈ text.toList) := by
  simp only [passable, Text.terminated?, ← Text.zero_mem_encode_iff]
  split
  case isTrue h  => simp [h]
  case isFalse h => simp [h]

-- A program that cannot be handed over is refused without a call, first of all for its code. All others are handed over
-- in one call, and what becomes of them is what this call says.
theorem programLoad_exact (d : Dialogue) (a : ProgramAttributes) (log : Option LogBuffer) :
    (a.code = [] ∨ a.code.length % Instruction.size ≠ 0 →
      d.programLoad a log = ((.error (.errno Errno.invalid), log), d)) ∧
    (a.code ≠ [] → a.code.length % Instruction.size = 0 →
      '\x00' ∈ a.name.toList ∨ '\x00' ∈ a.license.toList →
      d.programLoad a log = ((.error .interiorZero, log), d)) ∧
    (a.code ≠ [] → a.code.length % Instruction.size = 0 →
      '\x00' ∉ a.name.toList → '\x00' ∉ a.license.toList →
      ∃ call reply, call.HandsOver a log ∧ reply = d.replies.head?.getD {} ∧
        d.programLoad a log = ((match reply.errno with
            | some cause => .error (.errno cause)
            | none => .ok reply.result, log.map (·.write reply.output)),
          ⟨d.replies.tail, d.calls ++ [(call, reply)]⟩)) := by
  refine ⟨fun hc => ?_, fun hn hc ht => ?_, fun hn hc hname hlicense => ?_⟩
  case refine_1 => rw [programLoad, if_pos hc]
  case refine_2 =>
    have ht : !passable a.name || !passable a.license := by
      simpa [passable_eq] using ht
    rw [programLoad, if_neg (by simp [hn, hc]), if_pos ht]
  case refine_3 =>
    have ht : ¬(!passable a.name || !passable a.license) := by
      simp [passable_eq, hname, hlicense]
    refine ⟨_, _, handsOver_programLoad _ hc (Text.zero_mem_encode_iff.not.mpr hlicense), rfl, ?_⟩
    rw [programLoad, if_neg (by simp [hn, hc]), if_neg ht]
    cases he : (d.replies.head?.getD {}).errno
    case none => simp only [submit, he]
    case some => simp only [submit, he]

-- A program whose name is too long.
theorem programLoad_exact_of_longName : ∃ call : Syscall,
    (programLoad ⟨[{ result := 9 }], []⟩
      ⟨"count_packets_xdp", .xdp, [0x95, 0, 0, 0, 0, 0, 0, 0], "GPL", 0⟩ none) =
      ((.ok 9, none), ⟨[], [(call, { result := 9 })]⟩) ∧
    field call.attributes 48 nameSize = Text.encode "count_packets_x" ++ [0] := by
  obtain ⟨_, _, h⟩ := programLoad_exact ⟨[{ result := 9 }], []⟩
    ⟨"count_packets_xdp", .xdp, [0x95, 0, 0, 0, 0, 0, 0, 0], "GPL", 0⟩ none
  obtain ⟨call, reply, hc, rfl, he⟩ := h (by decide) (by decide) (by decide) (by decide)
  exact ⟨call, he, hc.name⟩

end Dialogue

end EbpfManager
