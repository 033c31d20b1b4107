import EbpfManager.Proofs.Syscall.Blocks
import EbpfManager.Syscall.Dialogue

namespace EbpfManager

open Syscall

namespace Syscall

variable {output : Bytes} {start width room : Nat}

theorem length_programBlock (room : Nat) : (programBlock room).length = programBlockSize := by
  simp [programBlock, Bytes.patch, mapCountStart, programBlockSize, length_word]

theorem mapCount_programBlock (room : Nat) : mapCount (programBlock room) = room % 2 ^ 32 :=
  number_of_eq _ _ rfl (by simp [mapCountStart, programBlockSize])

-- What is announced in a block stands in no other field of it.
theorem field_overlay_programBlock (h : start + width ≤ mapCountStart ∨ mapCountStart + 4 ≤ start)
    (hs : start + width ≤ programBlockSize) : field ((programBlock room).overlay output) start width =
      field (Bytes.overlay (List.replicate programBlockSize 0) output) start width := by
  refine field_congr fun i hl hu => ?_
  have hi : i < programBlockSize := by omega
  have hm : mapCountStart ≤ (List.replicate programBlockSize (0 : UInt8)).length := by decide
  rw [Bytes.getElem?_overlay (length_programBlock room ▸ hi), Bytes.getElem?_overlay (List.length_replicate ▸ hi)]
  congr 1
  cases h
  case inl h => exact Bytes.getElem?_patch_of_lt hm (by omega)
  case inr h => exact Bytes.getElem?_patch_of_le hm (by rw [length_word]; omega)

theorem readProgramBlock_overlay (ids : List Nat) : readProgramBlock ((programBlock room).overlay output) ids =
    readProgramBlock (Bytes.overlay (List.replicate programBlockSize 0) output) ids := by
  simp (disch := decide) only [readProgramBlock, number, field_overlay_programBlock]
  congr

-- A block that is written as far as the number of maps has the number that was written.
theorem mapCount_overlay (h : mapCountStart + 4 ≤ output.length) : mapCount ((programBlock room).overlay output) =
    mapCount (Bytes.overlay (List.replicate programBlockSize 0) output) := by
  rw [mapCount, mapCount, number, number]
  congr 1
  refine field_congr fun i _ hu => ?_
  have hi : i < programBlockSize := hu.trans_le (by decide)
  rw [Bytes.getElem?_overlay (length_programBlock room ▸ hi), Bytes.getElem?_overlay (List.length_replicate ▸ hi),
    if_pos (by omega), if_pos (by omega)]

end Syscall

namespace SyscallReply

variable {r : SyscallReply} {start width room : Nat}

-- The block as a reply leaves it: what the reply has written, and zero where it has written nothing.
def octet (r : SyscallReply) (i : Nat) : UInt8 :=
  r.output.getD i 0

def octets (r : SyscallReply) (start width : Nat) : Bytes :=
  (List.range' start width).map r.octet

-- The number in a field, with the least significant digit first.
def number (r : SyscallReply) (start width : Nat) : Nat :=
  Nat.ofDigits 256 ((r.octets start width).map UInt8.toNat)

-- How many maps a reply says that the program has.
def mapCount (r : SyscallReply) : Nat :=
  r.number 52 4

-- That a report says what a reply has written, field by field. A name ends at the first zero, and only one flag counts.
structure Reports (r : SyscallReply) (info : ProgramInfo) : Prop where
  kindNumber    : info.kindNumber = r.number 0 4
  id            : info.id = r.number 4 4
  tag           : info.tag = r.octets 8 8
  jitedLength   : info.jitedLength = r.number 16 4
  xlatedLength  : info.xlatedLength = r.number 20 4
  loadTime      : info.loadTime = r.number 40 8
  name          : info.name = Text.decodeLossy ((r.octets 64 16).takeWhile (· ≠ 0))
  gplCompatible : info.gplCompatible = (r.number 84 4).testBit 0

-- That the kernel says how many maps there are, and writes the numbers of as many of them as there is room for.
structure Complete (r : SyscallReply) (room : Nat) : Prop where
  covers : 56 ≤ r.output.length
  ids    : min room r.mapCount ≤ (r.mapIds.getD []).length

theorem field_written (h : start + width ≤ programBlockSize) :
    field (r.written programBlockSize) start width = r.octets start width := by
  refine List.ext_getElem? fun i => ?_
  rw [field, octets, List.getElem?_take, List.getElem?_drop, List.getElem?_map]
  split
  case isFalse hi => rw [List.getElem?_eq_none (by rw [List.length_range']; omega), Option.map_none]
  case isTrue hi =>
    have hl : start + i < programBlockSize := by omega
    rw [written, Bytes.getElem?_overlay (List.length_replicate ▸ hl), List.getElem?_range' hi, Nat.one_mul,
      Option.map_some, octet, List.getElem?_replicate_of_lt hl, List.getD_eq_getElem?_getD]
    split
    case isTrue ho  => rw [List.getElem?_eq_getElem ho, Option.getD_some]
    case isFalse ho => rw [List.getElem?_eq_none (by omega), Option.getD_none]

theorem number_written (h : start + width ≤ programBlockSize) :
    Syscall.number (r.written programBlockSize) start width = r.number start width := by
  rw [Syscall.number, field_written h, Bytes.toNat_eq_ofDigits, number]

theorem reports_readProgramBlock (r : SyscallReply) (ids : List Nat) :
    r.Reports (readProgramBlock (r.written programBlockSize) ids) where
  kindNumber    := number_written (by decide)
  id            := number_written (by decide)
  tag           := field_written (by decide)
  jitedLength   := number_written (by decide)
  xlatedLength  := number_written (by decide)
  loadTime      := number_written (by decide)
  name          := congrArg Text.ofPadded (field_written (by decide))
  gplCompatible := by
    have hn : Syscall.number (r.written programBlockSize) 84 4 = r.number 84 4 := number_written (by decide)
    rw [Nat.testBit_zero, ← hn]
    rfl

-- Only the numbers of the maps are told by something else.
theorem Reports.eq {info info' : ProgramInfo} (h : r.Reports info) (h' : r.Reports info')
    (hm : info.mapIds = info'.mapIds) : info = info' := by
  obtain ⟨hk, hi, ht, hj, hx, hl, hn, hg⟩ := h
  rw [← h'.kindNumber] at hk
  rw [← h'.id] at hi
  rw [← h'.tag] at ht
  rw [← h'.jitedLength] at hj
  rw [← h'.xlatedLength] at hx
  rw [← h'.loadTime] at hl
  rw [← h'.name] at hn
  rw [← h'.gplCompatible] at hg
  cases info
  cases info'
  simp_all

-- None of the numbers is left as it was before the call.
theorem Complete.writtenIds (h : r.Complete room) :
    r.writtenIds room r.mapCount = (r.mapIds.getD []).take (min room r.mapCount) := by
  have hl : ((r.mapIds.getD []).take (min room r.mapCount)).length = min room r.mapCount := List.length_take_of_le h.ids
  simp [SyscallReply.writtenIds, hl]

end SyscallReply

namespace Dialogue

variable {r : SyscallReply} {rest : List SyscallReply} {calls : List (Syscall × SyscallReply)} {call : Syscall}
  {cause : Errno}

theorem ask_of_error {α : Type} {read : SyscallReply → α} (h : r.errno = some cause) :
    ask ⟨r :: rest, calls⟩ call read = (.error (.errno cause), ⟨rest, calls ++ [(call, r)]⟩) := by
  simp [ask, submit, h]

theorem ask_of_ok {α : Type} {read : SyscallReply → α} (h : r.errno = none) :
    ask ⟨r :: rest, calls⟩ call read = (.ok (read r), ⟨rest, calls ++ [(call, r)]⟩) := by
  simp [ask, submit, h]

-- The report is never put together from both replies: each field is the last call's. The numbers of maps are those that
-- this call has written, and no more than it has written.
theorem programInfo_untorn (fd : Fd) (r₁ r₂ : SyscallReply) (rest : List SyscallReply)
    (calls : List (Syscall × SyscallReply)) :
    (∀ cause, r₁.errno = some cause → programInfo ⟨r₁ :: r₂ :: rest, calls⟩ fd =
      (.error (.errno cause), ⟨r₂ :: rest, calls ++ [(infoByFd fd programBlockSize 0, r₁)]⟩)) ∧
    (r₁.errno = none → r₁.mapCount = 0 →
      ∃ info, programInfo ⟨r₁ :: r₂ :: rest, calls⟩ fd =
          (.ok info, ⟨r₂ :: rest, calls ++ [(infoByFd fd programBlockSize 0, r₁)]⟩) ∧
        r₁.Reports info ∧ info.mapIds = []) ∧
    (r₁.errno = none → r₁.mapCount ≠ 0 →
      (programInfo ⟨r₁ :: r₂ :: rest, calls⟩ fd).2 = ⟨rest, calls ++
        [(infoByFd fd programBlockSize 0, r₁), (infoByFd fd programBlockSize r₁.mapCount, r₂)]⟩ ∧
      (infoByFd fd programBlockSize r₁.mapCount).memory = .report r₁.mapCount ∧
      mapCount (programBlock r₁.mapCount) = r₁.mapCount ∧
      (∀ cause, r₂.errno = some cause →
        (programInfo ⟨r₁ :: r₂ :: rest, calls⟩ fd).1 = .error (.errno cause)) ∧
      (r₂.errno = none → ∃ info, (programInfo ⟨r₁ :: r₂ :: rest, calls⟩ fd).1 = .ok info ∧
        r₂.Reports info ∧
        (r₂.Complete r₁.mapCount →
          info.mapIds = (r₂.mapIds.getD []).take (min r₁.mapCount r₂.mapCount) ∧
          info.mapIds.length = min r₁.mapCount r₂.mapCount))) := by
  have hm (r : SyscallReply) : mapCount (r.written programBlockSize) = r.mapCount :=
    SyscallReply.number_written (by decide)
  refine ⟨fun cause he => ?_, fun he hn => ?_, fun he hn => ?_⟩
  case refine_1 => rw [programInfo, ask_of_error he]
  case refine_2 =>
    refine ⟨_, ?_, r₁.reports_readProgramBlock [], rfl⟩
    rw [programInfo, ask_of_ok he]
    exact if_pos ((hm r₁).trans hn)
  case refine_3 =>
    have ho : programInfo ⟨r₁ :: r₂ :: rest, calls⟩ fd =
        ask ⟨r₂ :: rest, calls ++ [(infoByFd fd programBlockSize 0, r₁)]⟩
          (infoByFd fd programBlockSize r₁.mapCount) fun reply =>
            readProgramBlock ((programBlock r₁.mapCount).overlay reply.output)
              (reply.writtenIds r₁.mapCount (mapCount ((programBlock r₁.mapCount).overlay reply.output))) := by
      rw [programInfo, ask_of_ok he]
      simp only [hm]
      exact if_neg hn
    have hw : r₁.mapCount < 2 ^ 32 := hm r₁ ▸ number_lt ..
    refine ⟨?_, rfl, (mapCount_programBlock _).trans (Nat.mod_eq_of_lt hw), fun cause he => ?_, fun he => ?_⟩
    case refine_1 =>
      rw [ho]
      cases he : r₂.errno
      case none => rw [ask_of_ok he, List.append_assoc]; rfl
      case some => rw [ask_of_error he, List.append_assoc]; rfl
    case refine_2 => rw [ho, ask_of_error he]
    case refine_3 =>
      let ids := r₂.writtenIds r₁.mapCount (mapCount ((programBlock r₁.mapCount).overlay r₂.output))
      have hr : (programInfo ⟨r₁ :: r₂ :: rest, calls⟩ fd).1 =
          .ok (readProgramBlock (r₂.written programBlockSize) ids) := by
        rw [ho, ask_of_ok he]
        simp only [readProgramBlock_overlay]
        rfl
      refine ⟨_, hr, r₂.reports_readProgramBlock ids, fun hc => ?_⟩
      have hids : ids = (r₂.mapIds.getD []).take (min r₁.mapCount r₂.mapCount) := by
        rw [← hc.writtenIds, ← hm r₂, SyscallReply.written, ← mapCount_overlay hc.covers]
      exact ⟨hids, (congrArg List.length hids).trans (List.length_take_of_le hc.ids)⟩

-- A program with three maps, which loses one of them before the second call.
def beforeLoss : SyscallReply where
  output := programBlock 3

def afterLoss : SyscallReply where
  output :=
    word 6 ++ word 17 ++ [1, 2, 3, 4, 5, 6, 7, 8] ++ word 120 ++ word 96 ++ address ++ address ++ doubleWord 5000 ++
      word 0 ++ word 2 ++ address ++ objectName "xdp_filter" ++ word 0 ++ word 1
  mapIds := some [7, 9]

def reportAfterLoss : ProgramInfo where
  name          := "xdp_filter"
  kindNumber    := 6
  id            := 17
  tag           := [1, 2, 3, 4, 5, 6, 7, 8]
  jitedLength   := 120
  xlatedLength  := 96
  loadTime      := 5000
  gplCompatible := true
  mapIds        := [7, 9]

theorem programInfo_untorn_of_fewer : (programInfo ⟨[beforeLoss, afterLoss], []⟩ 5).1 = .ok reportAfterLoss := by
  obtain ⟨_, _, h⟩ := programInfo_untorn 5 beforeLoss afterLoss [] []
  obtain ⟨_, _, _, _, h⟩ := h rfl (by decide +kernel)
  obtain ⟨info, hr, hf, hm⟩ := h rfl
  obtain ⟨hm, _⟩ := hm ⟨by decide +kernel, by decide +kernel⟩
  have he : afterLoss.Reports reportAfterLoss := by constructor <;> decide +kernel
  have hids : info.mapIds = reportAfterLoss.mapIds := hm.trans (by decide +kernel)
  rw [hr, hf.eq he hids]

end Dialogue

end EbpfManager
