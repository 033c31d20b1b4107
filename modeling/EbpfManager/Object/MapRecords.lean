import EbpfManager.Object.Definition
import EbpfManager.Object.Layout

namespace EbpfManager.Object

open Elf

-- The least and the full size of a record.
def leastRecordSize : Nat := 20
def fullRecordSize : Nat := 40

-- Where in a record the references stand.
def innerField : Nat := 24
def pinField : Nat := 32

-- A record as it stands in the section: five numbers, and room for two references. Records may be
-- cut short behind the numbers. What the references lead to is given by relocations of the section.
structure RawRecord where
  offset : Nat
  length : Nat
  name : String
  kindNumber : Nat
  keySize : UInt32
  valueSize : UInt32
  maxEntries : UInt32
  flags : UInt32
  deriving DecidableEq, Repr

-- A definition and the position of its record.
structure MapRecord where
  offset : Nat
  definition : MapDefinition
  deriving DecidableEq, Repr

-- Where a reference in a record leads.
inductive Reference
  | inner (address : Nat)
  | pin (path : Path)
  deriving DecidableEq, Repr

namespace RawRecord

-- The record in a range of the section.
def read (order : ByteOrder) (contents : Bytes) (r : Range) : Except FormatError RawRecord :=
  if r.length < leastRecordSize ∨ contents.length < r.stop then
    .error (.truncatedMap r.name r.length)
  else
    let length := min r.length fullRecordSize
    let record := (contents.drop r.start).take length
    let field (i : Nat) : Nat := order.toNat ((record.drop (4 * i)).take 4)
    .ok {
      offset := r.start
      length
      name := r.name
      kindNumber := field 0
      keySize := .ofNat (field 1)
      valueSize := .ofNat (field 2)
      maxEntries := .ofNat (field 3)
      flags := .ofNat (field 4) }

def Contains (r : RawRecord) (offset : Nat) : Prop :=
  r.offset ≤ offset ∧ offset < r.offset + r.length

instance (r : RawRecord) (offset : Nat) : Decidable (r.Contains offset) :=
  inferInstanceAs (Decidable (_ ∧ _))

-- The shape, provided the kind is known.
def shape (r : RawRecord) : Except FormatError MapShape :=
  match MapKind.ofNumber? r.kindNumber with
  | some kind => .ok ⟨kind, r.keySize, r.valueSize, r.maxEntries, r.flags⟩
  | none => .error (.unknownMapKind r.name r.kindNumber)

end RawRecord

-- The text at an address of a section, to be taken as the pin path of map `name`.
def pinPathAt (image : Image) (name : String) (t : Target) : Except FormatError Path :=
  match image.sections[t.number]? with
  | none => .error (.badPinPath name)
  | some s => do
    let strings ← contentsOf s
    match (Text.ofTerminated? (strings.drop t.address)).filter (· ≠ "") with
    | some path => .ok ⟨path⟩
    | none => .error (.badPinPath name)

-- The reference that a relocation of the section supplies, and the offset of its record.
def referenceOf (image : Image) (number : Nat) (contents : Bytes) (records : List RawRecord)
    (r : Relocation) : Except FormatError (Nat × Reference) := do
  let unsupported := FormatError.unsupportedRelocation "maps" r.offset
  match records.find? (·.Contains r.offset) with
  | none => .error unsupported
  | some record =>
    let inPlace := ((contents.slice? r.offset 8).map image.order.toInt).getD 0
    let target ← target image "maps" r inPlace
    if r.offset - record.offset = innerField then
      if target.number = number then .ok (record.offset, .inner target.address)
      else .error unsupported
    else if r.offset - record.offset = pinField then do
      let path ← pinPathAt image record.name target
      .ok (record.offset, .pin path)
    else .error unsupported

-- The address of the inner map of the record at `offset`; the last reference counts.
def innerAddress? (references : List (Nat × Reference)) (offset : Nat) : Option Nat :=
  (references.filterMap fun (owner, reference) =>
    match reference with
    | .inner address => if owner = offset then some address else none
    | .pin _ => none).getLast?

-- The pin path of the record at `offset`; the last reference counts.
def pinPath? (references : List (Nat × Reference)) (offset : Nat) : Option Path :=
  (references.filterMap fun (owner, reference) =>
    match reference with
    | .inner _ => none
    | .pin path => if owner = offset then some path else none).getLast?

-- The shape of a record's inner map, if it refers to one.
def innerShape (records : List RawRecord) (references : List (Nat × Reference)) (r : RawRecord) :
    Except FormatError (Option MapShape) :=
  match innerAddress? references r.offset with
  | none => .ok none
  | some address =>
    match records.find? (·.offset = address) with
    | none => .error (.missingInnerMap r.name)
    | some inner => some <$> inner.shape

-- The definition in a record. A map of maps needs an inner map.
def define (records : List RawRecord) (references : List (Nat × Reference)) (r : RawRecord) :
    Except FormatError MapRecord := do
  let inner ← innerShape records references r
  let shape ← r.shape
  if shape.kind.isMapOfMaps ∧ inner = none then .error (.missingInnerMap r.name)
  else .ok ⟨r.offset, r.name, shape, inner, pinPath? references r.offset⟩

-- The records of `maps`, which is section `number`.
def readMaps (image : Image) (number : Nat) (s : Section) : Except FormatError (List MapRecord) := do
  let contents ← contentsOf s
  let ranges ← ranges image.symbols number contents.length none
  let records ← ranges.mapM (RawRecord.read image.order contents)
  let references ← s.relocations.mapM (referenceOf image number contents records)
  records.mapM (define records references)

end EbpfManager.Object
