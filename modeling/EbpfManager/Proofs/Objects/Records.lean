import EbpfManager.Object.Reader
import EbpfManager.Proofs.Objects.Functions

namespace EbpfManager.Object

open Elf

variable {image : Image} {number : Nat} {contents : Bytes}

-- The `i`th number of a record.
def word (order : ByteOrder) (contents : Bytes) (address i : Nat) : Nat :=
  order.toNat ((contents.drop (address + 4 * i)).take 4)

-- A map whose record begins at an address of section `number`. A symbol gives its name.
structure RecordAt (image : Image) (number : Nat) (contents : Bytes) (address : Nat)
    (d : MapDefinition) : Prop where
  symbol     : ∃ s ∈ image.symbols, s.name = some d.name ∧ s.inSection = some number ∧
                 s.address = address
  kind       : d.shape.kind.number = word image.order contents address 0
  keySize    : d.shape.keySize.toNat = word image.order contents address 1
  valueSize  : d.shape.valueSize.toNat = word image.order contents address 2
  maxEntries : d.shape.maxEntries.toNat = word image.order contents address 3
  flags      : d.shape.flags.toNat = word image.order contents address 4

theorem toNat_ofNat_word {order : ByteOrder} {address i : Nat}
    (h : address + 4 * i + 4 ≤ contents.length) :
    (UInt32.ofNat (word order contents address i)).toNat = word order contents address i := by
  have hl : ((contents.drop (address + 4 * i)).take 4).length = 4 := by
    simp
    omega
  have hlt : word order contents address i < 2 ^ 32 := by
    cases order
    case little =>
      have h := Bytes.toNat_lt ((contents.drop (address + 4 * i)).take 4)
      rwa [hl] at h
    case big =>
      have h := Bytes.toNat_lt ((contents.drop (address + 4 * i)).take 4).reverse
      rwa [List.length_reverse, hl] at h
  rw [UInt32.toNat_ofNat', Nat.mod_eq_of_lt hlt]

-- The numbers of a record are inside it, whatever it is cut to.
theorem RawRecord.read_eq_ok {order : ByteOrder} {r : Range} {raw : RawRecord}
    (h : RawRecord.read order contents r = .ok raw) :
    r.start + leastRecordSize ≤ contents.length ∧ raw.offset = r.start ∧ raw.name = r.name ∧
      raw.kindNumber = word order contents r.start 0 ∧
      raw.keySize = .ofNat (word order contents r.start 1) ∧
      raw.valueSize = .ofNat (word order contents r.start 2) ∧
      raw.maxEntries = .ofNat (word order contents r.start 3) ∧
      raw.flags = .ofNat (word order contents r.start 4) := by
  unfold RawRecord.read at h
  split at h
  case isTrue => cases h
  case isFalse hlen =>
    have h20 : leastRecordSize = 20 := rfl
    have h40 : fullRecordSize = 40 := rfl
    have hw {i : Nat} (hi : i ≤ 4) :
        order.toNat ((((contents.drop r.start).take (min r.length fullRecordSize)).drop (4 * i)).take 4) =
          word order contents r.start i := by
      rw [word, List.drop_take, List.take_take, List.drop_drop]
      congr 2
      omega
    cases h
    refine ⟨?_, rfl, rfl, hw (by decide), ?_⟩
    case refine_1 =>
      simp only [Range.length] at hlen
      omega
    case refine_2 =>
      simp only
      rw [hw (by decide), hw (by decide), hw (by decide), hw (by decide)]
      exact ⟨rfl, rfl, rfl, rfl⟩

theorem RawRecord.shape_eq_ok {raw : RawRecord} {shape : MapShape} (h : raw.shape = .ok shape) :
    shape.kind.number = raw.kindNumber ∧ shape.keySize = raw.keySize ∧
      shape.valueSize = raw.valueSize ∧ shape.maxEntries = raw.maxEntries ∧
      shape.flags = raw.flags := by
  unfold RawRecord.shape at h
  split at h <;> cases h
  case h_1 kind hk => exact ⟨MapKind.number_of_ofNumber? hk, rfl, rfl, rfl, rfl⟩

theorem define_eq_ok {raws : List RawRecord} {references : List (Nat × Reference)}
    {raw : RawRecord} {record : MapRecord} (h : define raws references raw = .ok record) :
    record.offset = raw.offset ∧ record.definition.name = raw.name ∧
      raw.shape = .ok record.definition.shape := by
  simp only [define, bind_eq_ok] at h
  obtain ⟨inner, _, shape, hs, h⟩ := h
  split at h <;> cases h
  exact ⟨rfl, rfl, hs⟩

variable {s : Section} {records : List MapRecord} {record : MapRecord}

-- A record for each range, and a definition for each record.
theorem readMaps_eq_ok (h : readMaps image number s = .ok records) :
    ∃ contents rs raws references, s.contents = some contents ∧
      ranges image.symbols number contents.length none = .ok rs ∧
      List.Forall₂ (fun r raw => RawRecord.read image.order contents r = .ok raw) rs raws ∧
      List.Forall₂ (fun r reference => referenceOf image number contents raws r = .ok reference)
        s.relocations references ∧
      List.Forall₂ (fun raw record => define raws references raw = .ok record) raws records := by
  simp only [readMaps, bind_eq_ok, contentsOf_eq_ok, mapM_eq_ok] at h
  obtain ⟨contents, hc, rs, hrs, raws, hraws, references, hreferences, h⟩ := h
  exact ⟨contents, rs, raws, references, hc, hrs, hraws, hreferences, h⟩

theorem recordAt_of_define {rs : List Range} {r : Range} {raws : List RawRecord} {raw : RawRecord}
    {references : List (Nat × Reference)}
    (hrs : ranges image.symbols number contents.length none = .ok rs) (hr : r ∈ rs)
    (hread : RawRecord.read image.order contents r = .ok raw)
    (hd : define raws references raw = .ok record) :
    RecordAt image number contents record.offset record.definition := by
  obtain ⟨hlen, ho, hn, hk, hks, hvs, hme, hfl⟩ := RawRecord.read_eq_ok hread
  obtain ⟨hro, hrn, hs⟩ := define_eq_ok hd
  obtain ⟨hsk, hsks, hsvs, hsme, hsfl⟩ := RawRecord.shape_eq_ok hs
  have h20 : leastRecordSize = 20 := rfl
  have field {i : Nat} (hi : i ≤ 4) : (UInt32.ofNat (word image.order contents r.start i)).toNat =
      word image.order contents r.start i :=
    toNat_ofNat_word (by omega)
  rw [hro, ho]
  exact {
    symbol := by
      obtain ⟨m, hm, ha, hn'⟩ := exists_of_mem_rangesOf hrs hr
      obtain ⟨symbol, hsymbol, he⟩ := exists_of_mem_marks hm
      obtain ⟨hname, hin, _, _, _, ha', _⟩ := mark?_eq_some.mp he
      exact ⟨symbol, hsymbol, by rw [hname, hn', hrn, hn], hin, by rw [← ha', ha]⟩
    kind       := by rw [hsk, hk]
    keySize    := by rw [hsks, hks, field (by decide)]
    valueSize  := by rw [hsvs, hvs, field (by decide)]
    maxEntries := by rw [hsme, hme, field (by decide)]
    flags      := by rw [hsfl, hfl, field (by decide)] }

theorem readMaps_recordAt (h : readMaps image number s = .ok records) (hr : record ∈ records) :
    ∃ contents, s.contents = some contents ∧
      RecordAt image number contents record.offset record.definition := by
  obtain ⟨contents, rs, raws, references, hc, hrs, hraws, _, hrecords⟩ := readMaps_eq_ok h
  obtain ⟨raw, hraw, hd⟩ := exists_of_mem_right hrecords hr
  obtain ⟨range, hr, hread⟩ := exists_of_mem_right hraws hraw
  exact ⟨contents, hc, recordAt_of_define hrs hr hread hd⟩

-- No two records begin at one place: the marks go up, and a range begins at each.
theorem readMaps_pairwise (h : readMaps image number s = .ok records) :
    records.Pairwise (·.offset ≠ ·.offset) := by
  obtain ⟨contents, rs, raws, references, _, hrs, hraws, _, hrecords⟩ := readMaps_eq_ok h
  have hm : (marks image.symbols number none).Pairwise (·.address < ·.address) := marks_pairwise
  have hr : rs.Pairwise (·.start ≠ ·.start) := by
    rw [rangesOf_eq_map hm hrs, List.pairwise_map]
    exact hm.imp Nat.ne_of_lt
  have hraw : raws.Pairwise (·.offset ≠ ·.offset) := by
    refine pairwise_of_forall₂ hraws hr fun r raw r' raw' h h' hne => ?_
    obtain ⟨_, ho, _⟩ := RawRecord.read_eq_ok h
    obtain ⟨_, ho', _⟩ := RawRecord.read_eq_ok h'
    rwa [ho, ho']
  refine pairwise_of_forall₂ hrecords hraw fun raw record raw' record' h h' hne => ?_
  rwa [(define_eq_ok h).left, (define_eq_ok h').left]

-- Where there is a record, there is a `maps` section that it was read from.
theorem readMaps_of_mem {mapsNumber : Option Nat} (h : maps image = .ok (mapsNumber, records))
    (hr : record ∈ records) : ∃ s number, image.sectionNamed? "maps" = some (s, number) ∧
      mapsNumber = some number ∧ readMaps image number s = .ok records := by
  unfold maps at h
  split at h
  case h_1 =>
    cases h
    cases hr
  case h_2 s number hs =>
    obtain ⟨records', hread, he⟩ := bind_eq_ok.mp h
    cases he
    exact ⟨s, number, hs, rfl, hread⟩

end EbpfManager.Object
