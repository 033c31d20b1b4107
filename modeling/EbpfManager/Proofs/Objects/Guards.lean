import EbpfManager.Proofs.Elf.Bounds
import EbpfManager.Proofs.Elf.Tables
import EbpfManager.Proofs.Objects.Records

namespace EbpfManager.Object

open Elf

-- How reading stops short: the file is refused, or the reader itself goes wrong.
inductive Halt
  | refused (e : FormatError)
  | fault
  deriving DecidableEq

def Halt.of : FormatError → Halt
  | .addressOverflow => .fault
  | e                => .refused e

abbrev Guarded := Except Halt

namespace Guarded

-- What is read without such steps.
def accept {α : Type} (x : Except FormatError α) : Guarded α :=
  x.mapError Halt.of

def add (a b : Nat) : Guarded Nat :=
  if a + b < Bytes.limit 8 then .ok (a + b) else .error .fault

def sub (a b : Nat) : Guarded Nat :=
  if b ≤ a then .ok (a - b) else .error .fault

def mul (a b : Nat) : Guarded Nat :=
  if a * b < Bytes.limit 8 then .ok (a * b) else .error .fault

-- The octets from `start` up to `stop`.
def slice (bs : Bytes) (start stop : Nat) : Guarded Bytes :=
  if start ≤ stop ∧ stop ≤ bs.length then .ok ((bs.drop start).take (stop - start)) else .error .fault

-- The first `count` octets overwritten by just as many.
def copy (bs : Bytes) (count : Nat) (piece : Bytes) : Guarded Bytes :=
  if count ≤ bs.length ∧ piece.length = count then .ok (piece ++ bs.drop count) else .error .fault

def element {α : Type} (as : List α) (i : Nat) : Guarded α :=
  match as[i]? with
  | some a => .ok a
  | none   => .error .fault

def zeros (count : Nat) : Bytes :=
  List.replicate count 0

-- Four octets, to be taken as a number.
def quad (bs : Bytes) (offset : Nat) : Guarded Bytes := do
  let stop ← add offset 4
  let piece ← slice bs offset stop
  copy (zeros 4) 4 piece

-- The text before the first zero octet.
def terminated (bs : Bytes) : Guarded (Option String) :=
  match bs.findIdx? (· = 0) with
  | none => .ok none
  | some last => do
    let stop ← add last 1
    let piece ← slice bs 0 stop
    .ok (Text.ofTerminated? piece)

def readLicense (contents : Bytes) : Guarded String := do
  let text ← terminated contents
  match text.filter (· ≠ "") with
  | some license => .ok license
  | none         => .error (.refused (.badLicense contents))

def readVersion (order : ByteOrder) (contents : Bytes) : Guarded (Option UInt32) :=
  if contents.length = 4 then do
    let number ← quad contents 0
    let version := UInt32.ofNat (order.toNat number)
    .ok (if version = anyKernel then none else some version)
  else .error (.refused (.badKernelVersion contents))

def stop (length : Nat) (m : Mark) (rest : List Mark) : Guarded Nat :=
  if m.size = 0 then .ok ((rest.head?.map Mark.address).getD length) else add m.address m.size

def rangesOf (length : Nat) : List Mark → Guarded (List Range)
  | [] => .ok []
  | m :: rest => do
    let stop ← stop length m rest
    let ranges ← rangesOf length rest
    .ok (⟨m.address, stop, m.name⟩ :: ranges)

def ranges (symbols : List Symbol) (number length : Nat) (kind : Option SymbolKind) : Guarded (List Range) :=
  rangesOf length (marks symbols number kind)

def readRecord (order : ByteOrder) (contents : Bytes) (r : Range) : Guarded RawRecord :=
  if r.length < leastRecordSize ∨ contents.length < r.stop then
    .error (.refused (.truncatedMap r.name r.length))
  else do
    let length := min r.length fullRecordSize
    let stop ← add r.start length
    let piece ← slice contents r.start stop
    let record ← copy (zeros fullRecordSize) length piece
    let field (i : Nat) : Guarded Nat := do
      let offset ← mul i 4
      let number ← quad record offset
      .ok (order.toNat number)
    let kindNumber ← field 0
    let keySize ← field 1
    let valueSize ← field 2
    let maxEntries ← field 3
    let flags ← field 4
    .ok ⟨r.start, length, r.name, kindNumber, .ofNat keySize, .ofNat valueSize, .ofNat maxEntries, .ofNat flags⟩

-- The first record with the offset in it.
def recordWith (offset : Nat) : List RawRecord → Guarded (Option RawRecord)
  | [] => .ok none
  | record :: rest =>
    if record.offset ≤ offset then do
      let stop ← add record.offset record.length
      if offset < stop then .ok (some record) else recordWith offset rest
    else recordWith offset rest

def textAt (bs : Bytes) (address : Nat) : Guarded (Option String) :=
  if address ≤ bs.length then terminated (bs.drop address) else .ok none

def pinPathAt (image : Image) (name : String) (t : Target) : Guarded Path :=
  match image.sections[t.number]? with
  | none => .error (.refused (.badPinPath name))
  | some s => do
    let strings ← accept (contentsOf s)
    let text ← textAt strings t.address
    match text.filter (· ≠ "") with
    | some path => .ok ⟨path⟩
    | none      => .error (.refused (.badPinPath name))

-- The addend in a record.
def wordAt (order : ByteOrder) (bs : Bytes) (offset : Nat) : Guarded Int := do
  let stop ← add offset 8
  if offset ≤ stop ∧ stop ≤ bs.length then do
    let octets ← copy (zeros 8) 8 ((bs.drop offset).take (stop - offset))
    .ok (order.toInt octets)
  else .ok 0

def referenceOf (image : Image) (number : Nat) (contents : Bytes) (records : List RawRecord) (r : Relocation) :
    Guarded (Nat × Reference) := do
  let unsupported := Halt.refused (.unsupportedRelocation "maps" r.offset)
  match ← recordWith r.offset records with
  | none => .error unsupported
  | some record =>
    let inPlace ← wordAt image.order contents r.offset
    let target ← accept (target image "maps" r inPlace)
    let field ← sub r.offset record.offset
    if field = innerField then
      if target.number = number then .ok (record.offset, .inner target.address) else .error unsupported
    else if field = pinField then do
      let path ← pinPathAt image record.name target
      .ok (record.offset, .pin path)
    else .error unsupported

def readMaps (image : Image) (number : Nat) (s : Section) : Guarded (List MapRecord) := do
  let contents ← accept (contentsOf s)
  let ranges ← ranges image.symbols number contents.length none
  let records ← ranges.mapM (readRecord image.order contents)
  let references ← s.relocations.mapM (referenceOf image number contents records)
  accept (records.mapM (define records references))

def programRanges (s : ProgramSection) (image : Image) : Guarded (List Range) := do
  match ← ranges image.symbols s.number s.contents.length (some .function) with
  | []     => .ok [⟨0, s.contents.length, nameFromSection s.name⟩]
  | ranges => .ok ranges

def codeIn (s : ProgramSection) (r : Range) : Guarded Bytes :=
  if r.length = 0 ∨ r.length % Instruction.size ≠ 0 ∨ s.contents.length < r.stop then
    .error (.refused (.badCode r.name r.length))
  else slice s.contents r.start r.stop

-- The addend in an instruction.
def immediateAt (order : ByteOrder) (bs : Bytes) (offset : Nat) : Guarded Int := do
  let start ← add offset 4
  let stop ← add offset 8
  if start ≤ stop ∧ stop ≤ bs.length then do
    let octets ← quad bs start
    .ok (order.toInt octets)
  else .ok 0

def loadOf (s : ProgramSection) (image : Image) (mapsNumber : Option Nat) (records : List MapRecord)
    (ranges : List Range) (codes : List Bytes) (r : Relocation) : Guarded (Nat × MapLoad) := do
  let unsupported := Halt.refused (.unsupportedRelocation s.name r.offset)
  match ranges.zipIdx.find? (·.1.Contains r.offset) with
  | none => .error unsupported
  | some (range, position) =>
    let inPlace ← immediateAt image.order s.contents r.offset
    let target ← accept (target image s.name r inPlace)
    if some target.number ≠ mapsNumber then .error unsupported
    else match records.find? (·.offset = target.address) with
      | none => .error unsupported
      | some record => do
        let _ ← element codes position
        let distance ← sub r.offset range.start
        .ok (position, ⟨distance / Instruction.size, record.definition.name⟩)

def programs (s : ProgramSection) (image : Image) (mapsNumber : Option Nat) (records : List MapRecord) :
    Guarded (List ProgramDefinition) := do
  let ranges ← programRanges s image
  let codes ← ranges.mapM (codeIn s)
  let loads ← s.relocations.mapM (loadOf s image mapsNumber records ranges codes)
  .ok ((ranges.zip codes).zipIdx.map fun ((range, code), position) => {
    name := range.name
    kind := s.kind
    sectionName := s.name
    license := s.license
    code
    loads := ProgramSection.loadsAt loads position })

def license (image : Image) : Guarded String :=
  match image.sectionNamed? "license" with
  | none        => .ok "GPL"
  | some (s, _) => do readLicense (← accept (contentsOf s))

def kernelVersion (image : Image) : Guarded (Option UInt32) :=
  match image.sectionNamed? "version" with
  | none        => .ok none
  | some (s, _) => do readVersion image.order (← accept (contentsOf s))

def maps (image : Image) : Guarded (Option Nat × List MapRecord) :=
  match image.sectionNamed? "maps" with
  | none => .ok (none, [])
  | some (s, number) => do
    let records ← readMaps image number s
    .ok (some number, records)

def programsIn (image : Image) (license : String) (mapsNumber : Option Nat) (records : List MapRecord)
    (s : Section) (number : Nat) : Guarded (List ProgramDefinition) :=
  if !s.isCode then .ok []
  else match s.name.bind Text.decode? with
    | none => .error (.refused (.badSection s!"#{number}"))
    | some name =>
      match if name = ".text" then none else ProgramKind.ofSectionName? name with
      | none => .ok []
      | some kind => do
        let contents ← accept (contentsOf s)
        programs ⟨number, name, kind, license, contents, s.relocations⟩ image mapsNumber records

def ofImage (image : Image) : Guarded ObjectFile := do
  let license ← license image
  let kernelVersion ← kernelVersion image
  let (mapsNumber, records) ← maps image
  let programs ← (image.sections.zipIdx.drop 1).mapM fun (s, number) =>
    programsIn image license mapsNumber records s number
  .ok ⟨license, kernelVersion, records.map MapRecord.definition, programs.flatten⟩

-- Numbers have 64 bits, and octets are copied out of slices: a sum, a difference or a product can leave the 64
-- bits, a slice can leave the octets that it is taken from, a copy needs two lengths to agree and an index has to
-- be one. This reads as `ObjectFile.parse` does and checks each of these where it is used, so that it can end with
-- a fault instead.
def parse (file : Bytes) : Guarded ObjectFile :=
  match Elf.Image.read? file with
  | none       => .error (.refused .unreadable)
  | some image => ofImage image

section

variable {ε α β : Type}

theorem accept_bind (x : Except FormatError α) (f : α → Except FormatError β) :
    accept (x >>= f) = accept x >>= fun a => accept (f a) := by
  cases x <;> rfl

theorem accept_mapM (f : α → Except FormatError β) (as : List α) :
    accept (as.mapM f) = as.mapM fun a => accept (f a) := by
  induction as
  case nil => rfl
  case cons a as ih => simp only [List.mapM_cons, accept_bind, ih]; rfl

theorem accept_eq_ok {x : Except FormatError α} {a : α} : accept x = .ok a ↔ x = .ok a :=
  mapError_eq_ok

end

section

variable {a b : Nat} {bs : Bytes}

theorem add_eq (h : a + b < Bytes.limit 8) : add a b = .ok (a + b) :=
  if_pos h

theorem sub_eq (h : b ≤ a) : sub a b = .ok (a - b) :=
  if_pos h

theorem mul_eq (h : a * b < Bytes.limit 8) : mul a b = .ok (a * b) :=
  if_pos h

theorem slice_eq (h : a ≤ b) (hb : b ≤ bs.length) : slice bs a b = .ok ((bs.drop a).take (b - a)) :=
  if_pos ⟨h, hb⟩

theorem copy_eq {count : Nat} {piece : Bytes} (h : count ≤ bs.length) (hp : piece.length = count) :
    copy bs count piece = .ok (piece ++ bs.drop count) :=
  if_pos ⟨h, hp⟩

-- A slice has less than 2^63 octets, so that there is room for small sums.
theorem lt_limit (h : a < 2 ^ 63 + 8) : a < Bytes.limit 8 := by
  have hl : Bytes.limit 8 = 2 ^ 64 := by decide
  omega

theorem quad_eq (h : a + 4 ≤ bs.length) (hb : bs.length < 2 ^ 63) : quad bs a = .ok ((bs.drop a).take 4) := by
  have hp : ((bs.drop a).take (a + 4 - a)).length = 4 := by
    simp
    omega
  rw [quad, add_eq (lt_limit (by omega)), ok_bind, slice_eq (Nat.le_add_right a 4) h, ok_bind,
    copy_eq (by decide) hp, Nat.add_sub_cancel_left]
  simp [zeros]

theorem terminated_eq (hb : bs.length < 2 ^ 63) : terminated bs = .ok (Text.ofTerminated? bs) := by
  unfold terminated
  split
  case h_1 hn =>
    have hz : (0 : UInt8) ∉ bs := fun h => by simpa using List.findIdx?_eq_none_iff.mp hn 0 h
    simp [Text.ofTerminated?, Bytes.terminated?, hz]
  case h_2 last hf =>
    obtain ⟨hlt, hz, hbefore⟩ := List.findIdx?_eq_some_iff_getElem.mp hf
    rw [add_eq (lt_limit (by omega)), ok_bind, slice_eq (Nat.zero_le _) hlt, ok_bind]
    -- Nothing behind the zero matters.
    have ht : Bytes.terminated? ((bs.drop 0).take (last + 1 - 0)) = Bytes.terminated? bs := by
      have hz : bs[last] = 0 := by simpa using hz
      have hn : (0 : UInt8) ∉ bs.take last := by
        intro h
        obtain ⟨i, hi, he⟩ := List.mem_take_iff_getElem.mp h
        exact absurd he (by simpa using hbefore i (by omega))
      have hb : bs = bs.take last ++ 0 :: bs.drop (last + 1) := by
        rw [← hz, ← List.drop_eq_getElem_cons hlt, List.take_append_drop]
      rw [List.drop_zero, Nat.sub_zero, List.take_succ_eq_append_getElem hlt, hz, Bytes.terminated?_of_not_mem hn]
      conv_rhs => rw [hb, Bytes.terminated?_of_not_mem hn]
    rw [Text.ofTerminated?, ht, Text.ofTerminated?]

theorem readLicense_eq (hb : bs.length < 2 ^ 63) : readLicense bs = accept (Object.readLicense bs) := by
  rw [readLicense, terminated_eq hb, ok_bind, Object.readLicense]
  cases (Text.ofTerminated? bs).filter (· ≠ "") <;> rfl

theorem readVersion_eq (order : ByteOrder) : readVersion order bs = accept (Object.readVersion order bs) := by
  unfold readVersion Object.readVersion
  split
  case isTrue h =>
    rw [quad_eq (by omega) (by omega), ok_bind, List.drop_zero, ← h, List.take_length]
    rfl
  case isFalse => rfl

end

section

variable {symbols : List Symbol} {number length : Nat} {kind : Option SymbolKind}

theorem mark_address_lt {image : Image} {m : Mark} (b : image.Bounded)
    (hm : m ∈ marks image.symbols number kind) : m.address < Bytes.limit 8 := by
  obtain ⟨s, hs, he⟩ := exists_of_mem_marks hm
  obtain ⟨_, _, _, _, _, ha, _⟩ := mark?_eq_some.mp he
  exact ha ▸ b.address hs

theorem rangesOf_eq {ms : List Mark} (hl : length < 2 ^ 63) (hm : ∀ m ∈ ms, m.address < Bytes.limit 8) :
    rangesOf length ms = accept (Object.rangesOf length ms) := by
  induction ms
  case nil => rfl
  case cons m rest ih =>
    have ih := ih fun m hm' => hm m (List.mem_cons_of_mem _ hm')
    have hlt := Mark.stop_lt_iff (lt_limit (hl.trans (by decide))) hm
    have hs : stop length m rest =
        if m.stop length rest < Bytes.limit 8 then .ok (m.stop length rest) else .error Halt.fault := by
      unfold stop
      split
      case isFalse h0 =>
        rw [Mark.stop, if_neg h0]
        rfl
      case isTrue h0 => rw [if_pos (hlt.mpr (h0 ▸ hm m List.mem_cons_self)), Mark.stop, if_pos h0]
    rw [rangesOf, hs, Object.rangesOf, ← Mark.stop, ih]
    split
    case isTrue  => rw [ok_bind, accept_bind]; rfl
    case isFalse => rfl

theorem ranges_eq {image : Image} (b : image.Bounded) (hl : length < 2 ^ 63) :
    ranges image.symbols number length kind =
      accept (Object.ranges image.symbols number length kind) :=
  rangesOf_eq hl fun _ => mark_address_lt b

end

section

variable {order : ByteOrder} {contents : Bytes} {offset : Nat} (hb : contents.length < 2 ^ 63)
include hb

theorem readRecord_eq (r : Range) : readRecord order contents r = accept (RawRecord.read order contents r) := by
  unfold readRecord RawRecord.read
  split
  case isTrue => rfl
  case isFalse h =>
    have h20 : leastRecordSize = 20 := rfl
    have h40 : fullRecordSize = 40 := rfl
    simp only [Range.length] at h ⊢
    obtain ⟨hmin, hmax, hlen⟩ : leastRecordSize ≤ min (r.stop - r.start) fullRecordSize ∧
        min (r.stop - r.start) fullRecordSize ≤ fullRecordSize ∧
        r.start + min (r.stop - r.start) fullRecordSize ≤ contents.length := by omega
    generalize min (r.stop - r.start) fullRecordSize = length at hmin hmax hlen
    have hp : ((contents.drop r.start).take length).length = length := by
      simp
      omega
    rw [add_eq (lt_limit (by omega)), ok_bind, slice_eq (Nat.le_add_right ..) hlen, ok_bind,
      Nat.add_sub_cancel_left, copy_eq (by simpa [zeros] using hmax) hp, ok_bind]
    generalize (contents.drop r.start).take length = piece at hp
    -- All numbers stand in what was copied.
    have hf {i : Nat} (hi : i ≤ 4) : (do
        let offset ← mul i 4
        let number ← quad (piece ++ (zeros fullRecordSize).drop length) offset
        .ok (order.toNat number)) = (.ok (order.toNat ((piece.drop (4 * i)).take 4)) : Guarded Nat) := by
      have hi : i * 4 + 4 ≤ piece.length := by omega
      rw [mul_eq (lt_limit (by omega)), ok_bind,
        quad_eq (by simp; omega) (by simp [zeros]; omega), ok_bind, List.drop_append_of_le_length (by omega),
        List.take_append_of_le_length (by simp; omega), Nat.mul_comm]
    rw [hf (by decide), ok_bind, hf (by decide), ok_bind, hf (by decide), ok_bind, hf (by decide), ok_bind,
      hf (by decide), ok_bind]
    rfl

omit hb in
theorem read_inside {r : Range} {raw : RawRecord} (h : RawRecord.read order contents r = .ok raw) :
    raw.offset + raw.length ≤ contents.length := by
  unfold RawRecord.read at h
  split at h
  case isTrue => cases h
  case isFalse hn =>
    cases h
    have h20 : leastRecordSize = 20 := rfl
    simp only [Range.length] at hn ⊢
    omega

theorem recordWith_eq {records : List RawRecord} (hr : ∀ r ∈ records, r.offset + r.length ≤ contents.length) :
    recordWith offset records = .ok (records.find? (·.Contains offset)) := by
  induction records
  case nil => rfl
  case cons r rest ih =>
    have ih := ih fun r h => hr r (List.mem_cons_of_mem _ h)
    have hr := hr r List.mem_cons_self
    have hlt : r.offset + r.length < Bytes.limit 8 := lt_limit (by omega)
    rw [recordWith, add_eq hlt, ok_bind, ih]
    by_cases hs : r.offset ≤ offset <;> by_cases ht : offset < r.offset + r.length <;>
      simp [hs, ht, RawRecord.Contains]

theorem wordAt_eq (h : offset < contents.length) :
    wordAt order contents offset = .ok (((contents.slice? offset 8).map order.toInt).getD 0) := by
  rw [wordAt, add_eq (lt_limit (by omega)), ok_bind]
  unfold Bytes.slice?
  by_cases hs : offset + 8 ≤ contents.length
  case pos =>
    rw [if_pos ⟨Nat.le_add_right .., hs⟩, if_pos hs, copy_eq (by decide) (by simp; omega), ok_bind,
      Nat.add_sub_cancel_left]
    simp [zeros]
  case neg =>
    rw [if_neg (fun h => hs h.right), if_neg hs]
    rfl

theorem immediateAt_eq (h : offset < contents.length) :
    immediateAt order contents offset = .ok (((contents.slice? (offset + 4) 4).map order.toInt).getD 0) := by
  rw [immediateAt, add_eq (lt_limit (by omega)), ok_bind, add_eq (lt_limit (by omega)), ok_bind]
  unfold Bytes.slice?
  by_cases hs : offset + 8 ≤ contents.length
  case pos =>
    rw [if_pos ⟨by omega, hs⟩, quad_eq hs hb, ok_bind, if_pos hs]
    rfl
  case neg =>
    rw [if_neg (fun h => hs h.right), if_neg hs]
    rfl

end

section

variable {image : Image} {number : Nat} {contents : Bytes}

theorem textAt_eq (hb : contents.length < 2 ^ 63) (address : Nat) :
    textAt contents address = .ok (Text.ofTerminated? (contents.drop address)) := by
  unfold textAt
  split
  case isTrue  => exact terminated_eq (by simp; omega)
  case isFalse => rw [List.drop_eq_nil_of_le (by omega)]; rfl

theorem length_lt (b : image.Bounded) {s : Section} {contents : Bytes} (hs : s ∈ image.sections)
    (hc : accept (contentsOf s) = .ok contents) : contents.length < 2 ^ 63 :=
  b.contents hs (contentsOf_eq_ok.mp (accept_eq_ok.mp hc))

theorem pinPathAt_eq (b : image.Bounded) (name : String) (t : Target) :
    pinPathAt image name t = accept (Object.pinPathAt image name t) := by
  unfold pinPathAt Object.pinPathAt
  cases hs : image.sections[t.number]?
  case none   => rfl
  case some s =>
    simp only
    rw [accept_bind]
    refine bind_congr_ok fun strings h => ?_
    rw [textAt_eq (length_lt b (List.mem_of_getElem? hs) h), ok_bind]
    cases (Text.ofTerminated? (strings.drop t.address)).filter (· ≠ "") <;> rfl

theorem referenceOf_eq {records : List RawRecord} (b : image.Bounded) (hb : contents.length < 2 ^ 63)
    (hr : ∀ record ∈ records, record.offset + record.length ≤ contents.length) (r : Relocation) :
    referenceOf image number contents records r = accept (Object.referenceOf image number contents records r) := by
  unfold referenceOf Object.referenceOf
  rw [recordWith_eq hb hr, ok_bind]
  cases hf : records.find? (·.Contains r.offset)
  case none => rfl
  case some record =>
    have hc : record.Contains r.offset := by simpa using List.find?_some hf
    obtain ⟨hle, hlt⟩ := hc
    have hmem := hr record (List.mem_of_find?_eq_some hf)
    simp only
    rw [wordAt_eq hb (by omega), ok_bind, accept_bind]
    refine bind_congr_ok fun t _ => ?_
    rw [sub_eq hle, ok_bind]
    by_cases hi : r.offset - record.offset = innerField
    case pos =>
      rw [if_pos hi, if_pos hi]
      split <;> rfl
    case neg =>
      rw [if_neg hi, if_neg hi]
      by_cases hp : r.offset - record.offset = pinField
      case pos => rw [if_pos hp, if_pos hp, pinPathAt_eq b, accept_bind]; rfl
      case neg => rw [if_neg hp, if_neg hp]; rfl

theorem readMaps_eq {s : Section} (b : image.Bounded) (hs : s ∈ image.sections) :
    readMaps image number s = accept (Object.readMaps image number s) := by
  unfold readMaps Object.readMaps
  rw [accept_bind]
  refine bind_congr_ok fun contents h => ?_
  have hb := length_lt b hs h
  rw [accept_bind, ranges_eq b hb]
  refine bind_congr_ok fun rs _ => ?_
  rw [accept_bind, accept_mapM, mapM_congr_mem fun r _ => readRecord_eq hb r]
  refine bind_congr_ok fun raws hr => ?_
  have hr : ∀ raw ∈ raws, raw.offset + raw.length ≤ contents.length := by
    intro raw hraw
    obtain ⟨r, _, he⟩ := exists_of_mem_right (mapM_eq_ok.mp hr) hraw
    exact read_inside (accept_eq_ok.mp he)
  rw [accept_bind, accept_mapM, mapM_congr_mem fun r _ => referenceOf_eq b hb hr r]

end

section

variable {s : ProgramSection} {image : Image} {mapsNumber : Option Nat} {records : List MapRecord}
  (hb : s.contents.length < 2 ^ 63)
include hb

omit hb in
theorem codeIn_eq (r : Range) : codeIn s r = accept (s.codeIn r) := by
  unfold codeIn ProgramSection.codeIn
  split
  case isTrue  => rfl
  case isFalse h =>
    simp only [Range.length] at h ⊢
    exact slice_eq (by omega) (by omega)

omit hb in
theorem stop_le {r : Range} {code : Bytes} (h : s.codeIn r = .ok code) : r.stop ≤ s.contents.length := by
  unfold ProgramSection.codeIn at h
  split at h
  case isTrue    => cases h
  case isFalse h => omega

theorem loadOf_eq {rs : List Range} {codes : List Bytes} (hc : codes.length = rs.length)
    (hr : ∀ r ∈ rs, r.stop ≤ s.contents.length) (r : Relocation) :
    loadOf s image mapsNumber records rs codes r = accept (s.loadOf image mapsNumber records rs r) := by
  unfold loadOf ProgramSection.loadOf
  cases hf : rs.zipIdx.find? (·.1.Contains r.offset)
  case none => rfl
  case some found =>
    obtain ⟨range, position⟩ := found
    have hin : range.Contains r.offset := by simpa using List.find?_some hf
    obtain ⟨hle, hlt⟩ := hin
    have hp := List.mem_zipIdx_iff_getElem?.mp (List.mem_of_find?_eq_some hf)
    have hstop := hr range (List.mem_of_getElem? hp)
    simp only
    rw [immediateAt_eq hb (by omega), ok_bind, accept_bind]
    refine bind_congr_ok fun t _ => ?_
    split
    case isTrue  => rfl
    case isFalse =>
      cases records.find? (·.offset = t.address)
      case none        => rfl
      case some record =>
        -- There is a program for each range.
        obtain ⟨hlt, _⟩ := List.getElem?_eq_some_iff.mp hp
        obtain ⟨code, hcode⟩ : ∃ code, codes[position]? = some code :=
          ⟨_, List.getElem?_eq_getElem (hc ▸ hlt)⟩
        simp only [element, hcode]
        rw [ok_bind, sub_eq hle]
        rfl

theorem programRanges_eq (b : image.Bounded) : programRanges s image = accept (s.programRanges image) := by
  unfold programRanges ProgramSection.programRanges
  rw [accept_bind, ranges_eq b hb]
  refine bind_congr_ok fun rs _ => ?_
  cases rs <;> rfl

theorem programs_eq (b : image.Bounded) :
    programs s image mapsNumber records = accept (s.programs image mapsNumber records) := by
  unfold programs ProgramSection.programs
  rw [accept_bind, programRanges_eq hb b]
  refine bind_congr_ok fun rs _ => ?_
  rw [accept_bind, accept_mapM, mapM_congr_mem fun r _ => codeIn_eq r]
  refine bind_congr_ok fun codes hc => ?_
  have hc := mapM_eq_ok.mp hc
  have hr : ∀ r ∈ rs, r.stop ≤ s.contents.length := by
    intro r hr
    obtain ⟨code, _, he⟩ := exists_of_mem_left hc hr
    exact stop_le (accept_eq_ok.mp he)
  rw [accept_bind, accept_mapM, mapM_congr_mem fun r _ => loadOf_eq hb hc.length_eq.symm hr r]
  rfl

end

section

variable {image : Image} (b : image.Bounded)
include b

omit b in
theorem mem_of_sectionNamed? {name : String} {s : Section} {number : Nat}
    (h : image.sectionNamed? name = some (s, number)) : s ∈ image.sections :=
  List.mem_of_getElem? <| List.mem_zipIdx_iff_getElem?.mp (List.mem_of_find?_eq_some h)

theorem license_eq : license image = accept (Object.license image) := by
  unfold license Object.license
  cases hs : image.sectionNamed? "license"
  case none => rfl
  case some found =>
    simp only
    rw [accept_bind]
    exact bind_congr_ok fun contents hc => readLicense_eq (length_lt b (mem_of_sectionNamed? hs) hc)

omit b in
theorem kernelVersion_eq : kernelVersion image = accept (Object.kernelVersion image) := by
  unfold kernelVersion Object.kernelVersion
  cases image.sectionNamed? "version"
  case none => rfl
  case some found =>
    simp only
    rw [accept_bind]
    exact bind_congr_ok fun contents _ => readVersion_eq image.order

theorem maps_eq : maps image = accept (Object.maps image) := by
  unfold maps Object.maps
  cases hs : image.sectionNamed? "maps"
  case none => rfl
  case some found =>
    simp only
    rw [accept_bind, readMaps_eq b (mem_of_sectionNamed? hs)]
    rfl

theorem programsIn_eq {license : String} {mapsNumber : Option Nat} {records : List MapRecord} {s : Section}
    {number : Nat} (hs : s ∈ image.sections) : programsIn image license mapsNumber records s number =
      accept (Object.programsIn image license mapsNumber records s number) := by
  unfold programsIn Object.programsIn
  split
  case isTrue => rfl
  case isFalse =>
    cases s.name.bind Text.decode?
    case none => rfl
    case some name =>
      simp only
      cases if name = ".text" then none else ProgramKind.ofSectionName? name
      case none => rfl
      case some kind =>
        simp only
        rw [accept_bind]
        exact bind_congr_ok fun contents hc => programs_eq (length_lt b hs hc) b

theorem ofImage_eq : ofImage image = accept (Object.ofImage image) := by
  unfold ofImage Object.ofImage
  rw [accept_bind, license_eq b]
  refine bind_congr_ok fun license _ => ?_
  rw [accept_bind, kernelVersion_eq]
  refine bind_congr_ok fun version _ => ?_
  rw [accept_bind, maps_eq b]
  refine bind_congr_ok fun found _ => ?_
  have hp : (image.sections.zipIdx.drop 1).mapM (fun (s, number) => programsIn image license found.1 found.2 s number) =
      (image.sections.zipIdx.drop 1).mapM fun (s, number) =>
        accept (Object.programsIn image license found.1 found.2 s number) :=
    mapM_congr_mem fun (s, number) hs =>
      programsIn_eq b (List.mem_of_getElem? <| List.mem_zipIdx_iff_getElem?.mp (List.mem_of_mem_drop hs))
  rw [accept_bind, accept_mapM]
  simp only
  rw [hp]
  rfl

end

theorem parse_eq {file : Bytes} (h : file.length < 2 ^ 63) : parse file = accept (ObjectFile.parse file) := by
  unfold parse ObjectFile.parse
  cases hi : Image.read? file
  case none       => rfl
  case some image => exact ofImage_eq (Image.bounded hi h)

end Guarded

end EbpfManager.Object
