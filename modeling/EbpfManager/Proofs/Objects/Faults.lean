import EbpfManager.Proofs.Loading.Links
import EbpfManager.Proofs.Objects.Guards

namespace EbpfManager.Object

open Elf

variable {α β : Type}

-- Whatever is wrong, it is no address.
def Addressed (x : Except FormatError α) : Prop :=
  x ≠ .error .addressOverflow

namespace Addressed

theorem ok (a : α) : Addressed (.ok a) := by
  simp [Addressed]

theorem bind {x : Except FormatError α} {f : α → Except FormatError β} (h : Addressed x)
    (hf : ∀ a, Addressed (f a)) : Addressed (x >>= f) := by
  cases x
  case ok a    => exact hf a
  case error e => exact fun he => h (by cases he; rfl)

theorem mapM {f : α → Except FormatError β} (h : ∀ a, Addressed (f a)) (as : List α) :
    Addressed (as.mapM f) := by
  induction as
  case nil => exact ok []
  case cons a as ih =>
    rw [List.mapM_cons]
    exact (h a).bind fun b => ih.bind fun bs => ok (b :: bs)

-- Work that goes wrong because of an address does so in its first step, or after it.
theorem bind_eq {x : Except FormatError α} {f : α → Except FormatError β} (h : Addressed x) :
    x >>= f = .error .addressOverflow ↔ ∃ a, x = .ok a ∧ f a = .error .addressOverflow := by
  cases x
  case ok a    => simp [ok_bind]
  case error e => exact ⟨fun he => absurd (by cases he; rfl) h, fun ⟨_, he, _⟩ => by cases he⟩

theorem bind_eq_left {x : Except FormatError α} {f : α → Except FormatError β} (hf : ∀ a, Addressed (f a)) :
    x >>= f = .error .addressOverflow ↔ x = .error .addressOverflow := by
  cases x
  case ok a    => exact ⟨fun he => absurd he (hf a), fun he => by cases he⟩
  case error e => exact ⟨fun he => by cases he; rfl, fun he => by cases he; rfl⟩

end Addressed

section

variable {image : Image} {number : Nat} {contents : Bytes}

theorem contentsOf_addressed (s : Section) : Addressed (contentsOf s) := by
  unfold contentsOf
  split <;> simp [Addressed]

theorem license_addressed (image : Image) : Addressed (license image) := by
  unfold license
  split
  case h_1 => exact .ok _
  case h_2 s _ _ =>
    refine (contentsOf_addressed s).bind fun contents => ?_
    unfold readLicense
    split <;> simp [Addressed]

theorem kernelVersion_addressed (image : Image) : Addressed (kernelVersion image) := by
  unfold kernelVersion
  split
  case h_1 => exact .ok _
  case h_2 s _ _ =>
    refine (contentsOf_addressed s).bind fun contents => ?_
    unfold readVersion
    split <;> simp [Addressed]

theorem target_addressed (sectionName : String) (r : Relocation) (inPlace : Int) :
    Addressed (target image sectionName r inPlace) := by
  unfold target
  split
  case h_1 => simp [Addressed]
  case h_2 => split <;> simp [Addressed]

theorem pinPathAt_addressed (name : String) (t : Target) : Addressed (pinPathAt image name t) := by
  unfold pinPathAt
  split
  case h_1 => simp [Addressed]
  case h_2 =>
    refine (contentsOf_addressed _).bind fun strings => ?_
    split <;> simp [Addressed]

theorem referenceOf_addressed (records : List RawRecord) (r : Relocation) :
    Addressed (referenceOf image number contents records r) := by
  unfold referenceOf
  split
  case h_1 => simp [Addressed]
  case h_2 record _ =>
    refine (target_addressed _ _ _).bind fun t => ?_
    split
    case isTrue  => split <;> simp [Addressed]
    case isFalse =>
      split
      case isTrue  => exact (pinPathAt_addressed _ _).bind fun path => .ok _
      case isFalse => simp [Addressed]

theorem read_addressed (order : ByteOrder) (r : Range) : Addressed (RawRecord.read order contents r) := by
  unfold RawRecord.read
  split <;> simp [Addressed]

theorem shape_addressed (r : RawRecord) : Addressed r.shape := by
  unfold RawRecord.shape
  split <;> simp [Addressed]

theorem define_addressed (records : List RawRecord) (references : List (Nat × Reference)) (r : RawRecord) :
    Addressed (define records references r) := by
  refine Addressed.bind ?_ fun inner => (shape_addressed r).bind fun shape => ?_
  case refine_1 =>
    unfold innerShape
    split
    case h_1 => exact .ok _
    case h_2 =>
      split
      case h_1       => simp [Addressed]
      case h_2 inner _ => exact (shape_addressed inner).bind fun shape => .ok _
  case refine_2 => split <;> simp [Addressed]

theorem codeIn_addressed (s : ProgramSection) (r : Range) : Addressed (s.codeIn r) := by
  unfold ProgramSection.codeIn
  split <;> simp [Addressed]

theorem loadOf_addressed (s : ProgramSection) (mapsNumber : Option Nat) (records : List MapRecord) (rs : List Range)
    (r : Relocation) : Addressed (s.loadOf image mapsNumber records rs r) := by
  unfold ProgramSection.loadOf
  split
  case h_1 => simp [Addressed]
  case h_2 =>
    refine (target_addressed _ _ _).bind fun t => ?_
    split
    case isTrue  => simp [Addressed]
    case isFalse => split <;> simp [Addressed]

end

-- A symbol that begins a range ends behind the last address.
def Exceeds (image : Image) (number : Nat) (kind : Option SymbolKind) : Prop :=
  ∃ m ∈ marks image.symbols number kind, Bytes.limit 8 ≤ m.address + m.size

section

variable {image : Image} {number length : Nat} {kind : Option SymbolKind}

theorem ranges_eq_overflow (b : image.Bounded) (hl : length < 2 ^ 63) :
    ranges image.symbols number length kind = .error .addressOverflow ↔ Exceeds image number kind :=
  (rangesOf_eq_error (Guarded.lt_limit (hl.trans (by decide))) fun _ => Guarded.mark_address_lt b).trans
    (and_iff_right rfl)

theorem readMaps_eq_overflow {s : Section} (b : image.Bounded) (hs : s ∈ image.sections) :
    readMaps image number s = .error .addressOverflow ↔ s.contents.isSome ∧ Exceeds image number none := by
  rw [readMaps, Addressed.bind_eq (contentsOf_addressed s)]
  simp only [contentsOf_eq_ok, Option.isSome_iff_exists, ← exists_and_right]
  refine exists_congr fun contents => and_congr_right fun hc => ?_
  rw [Addressed.bind_eq_left, ranges_eq_overflow b (b.contents hs hc)]
  intro rs
  exact (Addressed.mapM (read_addressed _) _).bind fun raws =>
    (Addressed.mapM (referenceOf_addressed _) _).bind fun references => Addressed.mapM (define_addressed _ _) _

theorem programs_eq_overflow {s : ProgramSection} {mapsNumber : Option Nat} {records : List MapRecord}
    (b : image.Bounded) (hl : s.contents.length < 2 ^ 63) :
    s.programs image mapsNumber records = .error .addressOverflow ↔ Exceeds image s.number (some .function) := by
  refine (Addressed.bind_eq_left fun rs => ?_).trans <| (Addressed.bind_eq_left fun rs => ?_).trans <|
    ranges_eq_overflow b hl
  case refine_1 =>
    exact (Addressed.mapM (codeIn_addressed s) _).bind fun codes =>
      (Addressed.mapM (loadOf_addressed s _ _ _) _).bind fun loads => .ok _
  case refine_2 => cases rs <;> exact .ok _

theorem programsIn_eq_overflow {text : String} {mapsNumber : Option Nat} {records : List MapRecord} {s : Section}
    (b : image.Bounded) (hs : image.sections[number]? = some s) (hn : 0 < number) :
    programsIn image text mapsNumber records s number = .error .addressOverflow ↔
      (∃ contents, HoldsPrograms image number s contents) ∧ Exceeds image number (some .function) := by
  have hmem := List.mem_of_getElem? hs
  unfold programsIn
  constructor
  case mp =>
    intro h
    split at h
    case isTrue => cases h
    case isFalse hcode =>
      split at h
      case h_1 => cases h
      case h_2 name hname =>
        split at h
        case h_1 => cases h
        case h_2 kind hkind =>
          obtain ⟨ht, hk⟩ := Option.ite_none_left_eq_some.mp hkind
          obtain ⟨contents, hc, h⟩ := (Addressed.bind_eq (contentsOf_addressed s)).mp h
          have hc := contentsOf_eq_ok.mp hc
          exact ⟨⟨contents, hs, hn, by simpa using hcode, hc, name, kind, hname, ht, hk⟩,
            (programs_eq_overflow b (b.contents hmem hc)).mp h⟩
  case mpr =>
    rintro ⟨⟨contents, hp⟩, he⟩
    obtain ⟨name, kind, hname, ht, hk⟩ := hp.kind
    simp only [hp.code, hname, if_neg ht, hk]
    rw [if_neg (by simp), Addressed.bind_eq (contentsOf_addressed s)]
    exact ⟨contents, contentsOf_eq_ok.mpr hp.contents,
      (programs_eq_overflow b (b.contents hmem hp.contents)).mpr he⟩

end

-- What a file is read to until a symbol is met that ends behind the last address: the records of the maps come
-- first, and then the programs, section by section.
inductive Overflows (image : Image) : Prop
  | maps {text : String} {version : Option UInt32} {s : Section} {number : Nat} :
    license image = .ok text → kernelVersion image = .ok version → image.sectionNamed? "maps" = some (s, number) →
    s.contents.isSome → Exceeds image number none → Overflows image
  | programs {text : String} {version : Option UInt32} {mapsNumber : Option Nat} {records : List MapRecord}
      {before after : List (Section × Nat)} {s : Section} {number : Nat} {contents : Bytes} :
    license image = .ok text → kernelVersion image = .ok version → maps image = .ok (mapsNumber, records) →
    image.sections.zipIdx.drop 1 = before ++ (s, number) :: after →
    (∀ p ∈ before, ∃ ds, programsIn image text mapsNumber records p.1 p.2 = .ok ds) →
    HoldsPrograms image number s contents → Exceeds image number (some .function) → Overflows image

section

variable {image : Image}

theorem Overflows.exceeds (o : Overflows image) : ∃ number kind, Exceeds image number kind := by
  cases o
  case maps he     => exact ⟨_, _, he⟩
  case programs he => exact ⟨_, _, he⟩

theorem maps_eq_overflow (b : image.Bounded) : maps image = .error .addressOverflow ↔
    ∃ s number, image.sectionNamed? "maps" = some (s, number) ∧ s.contents.isSome ∧
      Exceeds image number none := by
  unfold maps
  cases hs : image.sectionNamed? "maps"
  case none => simp
  case some found =>
    obtain ⟨s, number⟩ := found
    simp only
    rw [Addressed.bind_eq_left fun _ => .ok _, readMaps_eq_overflow b (Guarded.mem_of_sectionNamed? hs)]
    simp

theorem ofImage_eq_overflow (b : image.Bounded) : ofImage image = .error .addressOverflow ↔ Overflows image := by
  unfold ofImage
  rw [Addressed.bind_eq (license_addressed image)]
  constructor
  case mp =>
    rintro ⟨text, hl, h⟩
    obtain ⟨version, hv, h⟩ := (Addressed.bind_eq (kernelVersion_addressed image)).mp h
    cases hm : maps image
    case error e =>
      rw [hm] at h
      cases h
      obtain ⟨s, number, hs, hc, he⟩ := (maps_eq_overflow b).mp hm
      exact .maps hl hv hs hc he
    case ok found =>
      obtain ⟨mapsNumber, records⟩ := found
      rw [hm, ok_bind] at h
      obtain ⟨before, ⟨s, number⟩, after, hs, hb, h⟩ :=
        mapM_eq_error.mp <| (Addressed.bind_eq_left fun _ => .ok _).mp h
      have hmem : (s, number) ∈ image.sections.zipIdx.drop 1 := hs ▸ List.mem_append_right _ List.mem_cons_self
      obtain ⟨hn, hget⟩ := mem_drop_zipIdx.mp hmem
      obtain ⟨⟨contents, hp⟩, he⟩ := (programsIn_eq_overflow b hget hn).mp h
      exact .programs hl hv hm hs hb hp he
  case mpr =>
    intro o
    cases o
    case maps text version s number hl hv hs hc he =>
      refine ⟨text, hl, (Addressed.bind_eq (kernelVersion_addressed image)).mpr ⟨version, hv, ?_⟩⟩
      rw [(maps_eq_overflow b).mpr ⟨s, number, hs, hc, he⟩]
      rfl
    case programs text version mapsNumber records before after s number contents hl hv hm hs hb hp he =>
      refine ⟨text, hl, (Addressed.bind_eq (kernelVersion_addressed image)).mpr ⟨version, hv, ?_⟩⟩
      rw [hm, ok_bind]
      refine (Addressed.bind_eq_left fun _ => .ok _).mpr <|
        mapM_eq_error.mpr ⟨before, (s, number), after, hs, hb, ?_⟩
      exact (programsIn_eq_overflow b hp.section_ hp.positive).mpr ⟨⟨contents, hp⟩, he⟩

end

end EbpfManager.Object

namespace EbpfManager.ObjectFile

open Elf Object

-- What can go wrong in the reader itself. A slice has less than 2^63 octets.
structure Guards (file : Bytes) : Prop where
  -- All checks pass where none is missed: reading with them ends as reading without them does.
  parse_eq  : Guarded.parse file = Guarded.accept (parse file)
  fault_iff : Guarded.parse file = .error .fault ↔ ∃ image, Image.read? file = some image ∧ Overflows image
  -- There is no fault in a file whose symbols all end within the addresses.
  of_symbols {image : Image} : Image.read? file = some image →
    (∀ s ∈ image.symbols, s.address + s.size < Bytes.limit 8) → Guarded.parse file ≠ .error .fault

theorem accept_eq_fault {α : Type} {x : Except FormatError α} :
    Guarded.accept x = .error .fault ↔ x = .error .addressOverflow := by
  cases x
  case ok      => simp [Guarded.accept, Except.mapError]
  case error e => cases e <;> simp [Guarded.accept, Except.mapError, Halt.of]

-- Of all the sums, slices and indices in the reader only one can go wrong: the address of a symbol and its size,
-- where the symbol begins a range.
theorem parse_guards {file : Bytes} (hf : file.length < 2 ^ 63) : Guards file := by
  have hp := Guarded.parse_eq hf
  have hfault : Guarded.parse file = .error .fault ↔
      ∃ image, Image.read? file = some image ∧ Overflows image := by
    rw [hp, accept_eq_fault, parse]
    cases hi : Image.read? file
    case none       => simp
    case some image => simpa using ofImage_eq_overflow (Image.bounded hi hf)
  refine ⟨hp, hfault, fun {image} hi hs h => ?_⟩
  obtain ⟨image', hi', o⟩ := hfault.mp h
  cases hi.symm.trans hi'
  obtain ⟨number, kind, m, hm, hle⟩ := o.exceeds
  obtain ⟨s, hmem, he⟩ := exists_of_mem_marks hm
  obtain ⟨_, _, _, _, _, ha, hz⟩ := mark?_eq_some.mp he
  exact absurd (hs s hmem) (not_lt.mpr (ha ▸ hz ▸ hle))

-- The record of the one map begins at an address and has a size, and the sum of the two has 65 bits.
def stretched : Draft where
  symbols  := [⟨"m", false, 1, 16, 2 ^ 64 - 8⟩]
  sections := [⟨"maps", .data, List.replicate 40 0, []⟩]

theorem stretched_faults : stretched.write.length < 2 ^ 63 ∧ Guarded.parse stretched.write = .error .fault := by
  decide +kernel

theorem parse_guards_of_stretched : stretched.write.length < 2 ^ 63 ∧ Guards stretched.write :=
  have hf : stretched.write.length < 2 ^ 63 := by decide +kernel
  ⟨hf, parse_guards hf⟩

end EbpfManager.ObjectFile
