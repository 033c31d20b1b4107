import EbpfManager.Proofs.Objects.Leaders

namespace EbpfManager.Object

open Elf

variable {symbols symbols' : List Symbol} {number length first offset : Nat} {kind : Option SymbolKind}
variable {ms : List Mark} {rs : List Range}

-- The first of some symbols at its address.
def IsFirst (symbols : List Symbol) (s : Symbol) : Prop :=
  symbols.find? (·.address = s.address) = some s

-- The ranges that some symbols begin in a section of `length` octets.
structure LaidOut (symbols : List Symbol) (length : Nat) (rs : List Range) : Prop where
  ascending : rs.Pairwise (·.start < ·.start)
  starts a  : a ∈ rs.map Range.start ↔ a ∈ symbols.map Symbol.address
  -- The first symbol at an address gives its range the name and, if it has a size, the end.
  range i r : rs[i]? = some r → ∃ s, symbols.find? (·.address = r.start) = some s ∧ s.name = some r.name ∧
    r.stop = if 0 < s.size then r.start + s.size else (rs[i + 1]?.map Range.start).getD length

-- Ranges from `first` to `length`, each of which begins where the one before ends.
inductive Tiles (length : Nat) : (first : Nat) → List Range → Prop
  | last {first : Nat} {name : String} : first ≤ length → Tiles length first [⟨first, length, name⟩]
  | cons {first next : Nat} {name : String} {rs : List Range} :
    first < next → Tiles length next rs → Tiles length first (⟨first, next, name⟩ :: rs)

namespace Tiles

theorem le (t : Tiles length first rs) : first ≤ length := by
  induction t
  case last hle       => exact hle
  case cons hlt _ hle => exact Nat.le_trans (Nat.le_of_lt hlt) hle

theorem le_start (t : Tiles length first rs) : ∀ r ∈ rs, first ≤ r.start := by
  induction t
  case last => simp
  case cons hlt _ ih =>
    refine List.forall_mem_cons.mpr ⟨Nat.le_refl _, fun r hr => ?_⟩
    exact Nat.le_trans (Nat.le_of_lt hlt) (ih r hr)

-- No two ranges overlap.
theorem apart (t : Tiles length first rs) : rs.Pairwise (·.stop ≤ ·.start) := by
  induction t
  case last      => exact List.pairwise_singleton _ _
  case cons t ih => exact List.pairwise_cons.mpr ⟨t.le_start, ih⟩

-- There are no gaps between them.
theorem exists_contains_iff (t : Tiles length first rs) :
    (∃ r ∈ rs, r.Contains offset) ↔ first ≤ offset ∧ offset < length := by
  induction t
  case last => simp [Range.Contains]
  case cons first next name rs hlt t ih =>
    have hle := t.le
    rw [List.exists_mem_cons_iff, ih]
    simp only [Range.Contains]
    omega

end Tiles

theorem getElem?_rangesOf (h : rangesOf length ms = .ok rs) (i : Nat) :
    rs[i]? = ms[i]?.map fun m => ⟨m.address, m.stop length (ms.drop (i + 1)), m.name⟩ := by
  induction ms generalizing rs i
  case nil => cases h; simp
  case cons m rest ih =>
    obtain ⟨_, rs', h', rfl⟩ := rangesOf_cons_eq_ok.mp h
    cases i
    case zero   => rfl
    case succ i => simpa using ih h' i

-- Without a size, a range ends where the next begins.
theorem tiles_of_rangesOf {m : Mark} (h : rangesOf length (m :: ms) = .ok rs)
    (hp : (m :: ms).Pairwise (·.address < ·.address))
    (h0 : ∀ m' ∈ m :: ms, m'.size = 0 ∧ m'.address ≤ length) :
    Tiles length m.address rs := by
  induction ms generalizing m rs
  case nil =>
    obtain ⟨hsize, hle⟩ := h0 m List.mem_cons_self
    obtain ⟨_, rs', h', rfl⟩ := rangesOf_cons_eq_ok.mp h
    cases h'
    rw [Mark.stop, if_pos hsize]
    exact .last hle
  case cons m' ms ih =>
    obtain ⟨hsize, _⟩ := h0 m List.mem_cons_self
    obtain ⟨_, rs', h', rfl⟩ := rangesOf_cons_eq_ok.mp h
    obtain ⟨hlt, hp⟩ := List.pairwise_cons.mp hp
    rw [Mark.stop, if_pos hsize]
    exact .cons (hlt m' List.mem_cons_self) (ih h' hp fun m'' hm => h0 m'' (List.mem_cons_of_mem _ hm))

theorem laidOut_of_ranges (h : ranges symbols number length kind = .ok rs) :
    LaidOut (beginnings symbols number kind) length rs := by
  obtain ⟨fs, hfs, hm⟩ := exists_leaders symbols number kind
  rw [ranges, hm] at h
  have hget (i : Nat) : rs[i]? = fs[i]?.map fun f =>
      ⟨f.address, (markOf f).stop length ((fs.map markOf).drop (i + 1)), f.name.getD ""⟩ := by
    rw [getElem?_rangesOf h, List.getElem?_map, Option.map_map]
    rfl
  have hstarts : rs.map Range.start = fs.map Symbol.address := by
    refine List.ext_getElem? fun i => ?_
    rw [List.getElem?_map, List.getElem?_map, hget, Option.map_map]
    rfl
  refine ⟨?_, fun a => ?_, fun i r hr => ?_⟩
  case refine_1 => exact List.pairwise_map.mp (hstarts ▸ List.pairwise_map.mpr hfs.ascending)
  case refine_2 => rw [hstarts, hfs.mem_addresses]
  case refine_3 =>
    obtain ⟨f, hf, rfl⟩ := Option.map_eq_some_iff.mp ((hget i).symm.trans hr)
    have hf := List.mem_of_getElem? hf
    have hname : f.name = some (f.name.getD "") := by
      obtain ⟨_, _, _, hn⟩ : Begins number kind f := by
        simpa [beginnings] using (List.mem_filter.mp (hfs.mem hf)).right
      cases hf : f.name <;> simp [hf] at hn ⊢
    have hnext : ((fs.map markOf).drop (i + 1)).head?.map Mark.address = rs[i + 1]?.map Range.start := by
      rw [List.head?_drop, ← List.getElem?_map, ← List.getElem?_map, hstarts, List.map_map]
      rfl
    refine ⟨f, (hfs.first f).mp hf, hname, ?_⟩
    rw [Mark.stop, hnext]
    by_cases h0 : f.size = 0 <;> simp [markOf, h0, Nat.pos_iff_ne_zero]

-- The marks are those of the leaders, and what leads does not depend on the order.
theorem marks_congr (hp : symbols.Perm symbols')
    (hd : (beginnings symbols number kind).Pairwise (·.address ≠ ·.address)) :
    marks symbols number kind = marks symbols' number kind := by
  obtain ⟨fs, hfs, hm⟩ := exists_leaders symbols number kind
  obtain ⟨fs', hfs', hm'⟩ := exists_leaders symbols' number kind
  have hb : (beginnings symbols number kind).Perm (beginnings symbols' number kind) := hp.filter _
  have hd' : (beginnings symbols' number kind).Pairwise (·.address ≠ ·.address) :=
    (hb.pairwise_iff Ne.symm).mp hd
  rw [hm, hm', hfs.eq_of_mem_iff hfs' fun f => by rw [hfs.mem_iff hd, hfs'.mem_iff hd', hb.mem_iff]]

-- How a table of symbols divides a section.
structure Divides (symbols : List Symbol) (number length : Nat) (kind : Option SymbolKind) : Prop where
  laidOut       : (∀ s, IsFirst (beginnings symbols number kind) s → s.address + s.size < Bytes.limit 8) →
    ∃ rs, ranges symbols number length kind = .ok rs ∧ LaidOut (beginnings symbols number kind) length rs
  -- The sum of an address and a size may have more than 64 bits. Nothing else goes wrong.
  overflow e    : ranges symbols number length kind = .error e ↔ e = .addressOverflow ∧
    ∃ s, IsFirst (beginnings symbols number kind) s ∧ Bytes.limit 8 ≤ s.address + s.size
  tiles first   : ((beginnings symbols number kind).map Symbol.address).min? = some first →
    (∀ s ∈ beginnings symbols number kind, s.size = 0 ∧ s.address ≤ length) →
    ∃ rs, ranges symbols number length kind = .ok rs ∧ Tiles length first rs ∧
      rs.Pairwise (·.stop ≤ ·.start) ∧
      ∀ offset, (∃ r ∈ rs, r.Contains offset) ↔ first ≤ offset ∧ offset < length
  perm symbols' : symbols.Perm symbols' → (beginnings symbols number kind).Pairwise (·.address ≠ ·.address) →
    ranges symbols' number length kind = ranges symbols number length kind

theorem mem_of_mem_beginnings {s : Symbol} (hs : s ∈ beginnings symbols number kind) : s ∈ symbols :=
  (List.mem_filter.mp hs).left

theorem ranges_eq_error {e : FormatError} (ha : ∀ s ∈ symbols, s.address < Bytes.limit 8)
    (hl : length < Bytes.limit 8) : ranges symbols number length kind = .error e ↔ e = .addressOverflow ∧
      ∃ s, IsFirst (beginnings symbols number kind) s ∧ Bytes.limit 8 ≤ s.address + s.size := by
  obtain ⟨fs, hfs, hm⟩ := exists_leaders symbols number kind
  have hms : ∀ m ∈ fs.map markOf, m.address < Bytes.limit 8 :=
    List.forall_mem_map.mpr fun f hf => ha f (mem_of_mem_beginnings (hfs.mem hf))
  rw [ranges, hm, rangesOf_eq_error hl hms]
  refine and_congr_right fun _ => ?_
  simp only [List.mem_map, exists_exists_and_eq_and, hfs.first]
  rfl

theorem exists_ranges (ha : ∀ s ∈ symbols, s.address < Bytes.limit 8) (hl : length < Bytes.limit 8)
    (h : ∀ s, IsFirst (beginnings symbols number kind) s → s.address + s.size < Bytes.limit 8) :
    ∃ rs, ranges symbols number length kind = .ok rs := by
  cases hr : ranges symbols number length kind
  case ok rs => exact ⟨rs, rfl⟩
  case error e =>
    obtain ⟨_, s, hs, hle⟩ := (ranges_eq_error ha hl).mp hr
    exact absurd (h s hs) (Nat.not_lt.mpr hle)

theorem tiles_of_ranges (h : ranges symbols number length kind = .ok rs)
    (hf : ((beginnings symbols number kind).map Symbol.address).min? = some first)
    (h0 : ∀ s ∈ beginnings symbols number kind, s.size = 0 ∧ s.address ≤ length) : Tiles length first rs := by
  obtain ⟨fs, hfs, hm⟩ := exists_leaders symbols number kind
  rw [ranges, hm] at h
  rw [← min?_congr hfs.mem_addresses, min?_of_pairwise (List.pairwise_map.mpr hfs.ascending)] at hf
  cases fs
  case nil => cases hf
  case cons f fs =>
    cases hf
    have hp : ((f :: fs).map markOf).Pairwise (·.address < ·.address) := List.pairwise_map.mpr hfs.ascending
    exact tiles_of_rangesOf h hp <| List.forall_mem_map.mpr fun f hf => h0 f (hfs.mem hf)

-- Addresses and the lengths of sections have 64 bits.
theorem ranges_divide (ha : ∀ s ∈ symbols, s.address < Bytes.limit 8) (hl : length < Bytes.limit 8) :
    Divides symbols number length kind where
  laidOut h := by
    obtain ⟨rs, hr⟩ := exists_ranges ha hl h
    exact ⟨rs, hr, laidOut_of_ranges hr⟩
  overflow e := ranges_eq_error ha hl
  tiles first hf h0 := by
    have hlt : ∀ s, IsFirst (beginnings symbols number kind) s → s.address + s.size < Bytes.limit 8 := by
      intro s hs
      have hs := List.mem_of_find?_eq_some hs
      rw [(h0 s hs).left]
      exact ha s (mem_of_mem_beginnings hs)
    obtain ⟨rs, hr⟩ := exists_ranges ha hl hlt
    have t := tiles_of_ranges hr hf h0
    exact ⟨rs, hr, t, t.apart, fun offset => t.exists_contains_iff⟩
  perm symbols' hp hd := by rw [ranges, ranges, marks_congr hp hd]

-- Two symbols at one address, a symbol for the section as a whole, one without a name and one of another section.
def crowded : List Symbol :=
  [⟨some "pass", .function, some 1, 24, 0⟩, ⟨some "alias", .other, some 1, 24, 8⟩,
    ⟨some "drop", .function, some 1, 8, 8⟩,
    ⟨some "xdp", .sectionStart, some 1, 0, 0⟩, ⟨none, .function, some 1, 0, 8⟩,
    ⟨some "count", .other, some 2, 0, 40⟩]

theorem ranges_divide_of_crowded :
    (∀ s ∈ crowded, s.address < Bytes.limit 8) ∧ 48 < Bytes.limit 8 ∧ Divides crowded 1 48 none ∧
      Divides crowded 1 48 (some .function) ∧
      ranges crowded 1 48 none = .ok [⟨8, 16, "drop"⟩, ⟨24, 48, "pass"⟩] := by
  have ha : ∀ s ∈ crowded, s.address < Bytes.limit 8 := by decide
  have hl : 48 < Bytes.limit 8 := by decide
  have hr : ranges crowded 1 48 none = .ok [⟨8, 16, "drop"⟩, ⟨24, 48, "pass"⟩] := by
    rw [ranges, marks, mergeSort_key_eq_insertionSort Mark.address]
    decide +kernel
  exact ⟨ha, hl, ranges_divide ha hl, ranges_divide ha hl, hr⟩

end EbpfManager.Object
