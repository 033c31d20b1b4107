import EbpfManager.Elf.Draft
import EbpfManager.Object.Reader

namespace EbpfManager.Object

structure MapSpec where
  name : String
  kindNumber : Nat
  keySize : UInt32
  valueSize : UInt32
  maxEntries : UInt32
  flags : UInt32 := 0
  inner : Option String := none
  pin : Option String := none
  deriving DecidableEq, Repr

structure ProgramSpec where
  -- Without a name there is no function symbol for the code.
  name : Option String
  sectionName : String
  code : Bytes
  -- Numbers of instructions and the symbols they refer to.
  loads : List (Nat × String) := []
  deriving DecidableEq, Repr

-- What a file is to define, and which instruction loads the address of what. The draft has the
-- sections `license`, `version` and `maps`, a section for every section name among the programs, in
-- the order of first use, and one for the texts of the pin paths.
structure Description where
  license : Option String := some "GPL"
  version : Option UInt32 := none
  -- The size of each record in the `maps` section.
  recordSize : Nat := 40
  maps : List MapSpec := []
  programs : List ProgramSpec := []
  deriving DecidableEq, Repr

-- `contents` with `piece` behind it, at the next multiple of `alignment`.
def append (alignment : Nat) (contents piece : Bytes) : Bytes :=
  contents ++ List.replicate (Elf.roundUp alignment contents.length - contents.length) 0 ++ piece

-- Pieces one behind the other, each at a multiple of `alignment`.
def layOut (alignment : Nat) (pieces : List Bytes) : Bytes :=
  pieces.foldl (append alignment) []

-- Where the piece behind all of `before` begins.
def offsetBehind (alignment : Nat) (before : List Bytes) : Nat :=
  Elf.roundUp alignment (layOut alignment before).length

namespace MapSpec

-- The record, cut to `size` octets. The references stay empty: relocations supply them.
def record (size : Nat) (m : MapSpec) : Bytes :=
  (Elf.fields [(4, m.kindNumber), (4, m.keySize.toNat), (4, m.valueSize.toNat),
    (4, m.maxEntries.toNat), (4, m.flags.toNat), (4, 0), (8, 0), (8, 0)]).take size

-- The octets of the pin path, with the final zero.
def pinText? (m : MapSpec) : Option Bytes :=
  m.pin.map fun path => Text.encode path ++ [0]

end MapSpec

namespace Description

-- References from a record need a record of full size.
def hasReferences (d : Description) : Bool := fullRecordSize ≤ d.recordSize

-- The maps that are to be pinned, with their positions.
def pinned (d : Description) : List (MapSpec × Nat) :=
  if d.hasReferences then d.maps.zipIdx.filter (·.1.pin.isSome) else []

def sectionNames (d : Description) : List String :=
  (d.programs.map ProgramSpec.sectionName).eraseDups

-- The names of the sections before those of the programs.
def leadingNames (d : Description) : List String :=
  (if d.license.isSome then ["license"] else []) ++
    (if d.version.isSome then ["version"] else []) ++ (if d.maps.isEmpty then [] else ["maps"])

-- The number of the `maps` section, if there is one.
def mapsNumber (d : Description) : Nat := d.leadingNames.length

def programsNumber (d : Description) (sectionName : String) : Nat :=
  d.leadingNames.length + d.sectionNames.idxOf sectionName + 1

def textsNumber (d : Description) : Nat :=
  d.leadingNames.length + d.sectionNames.length + 1

-- Where the record of the map at `position` begins.
def recordOffset (d : Description) (position : Nat) : Nat :=
  offsetBehind 4 ((d.maps.take position).map (MapSpec.record d.recordSize))

-- The code of the programs in one section.
def codeIn (programs : List ProgramSpec) (sectionName : String) : List Bytes :=
  (programs.filter (·.sectionName = sectionName)).map ProgramSpec.code

-- Where the code of the program at `position` begins in its section.
def codeOffset (d : Description) (position : Nat) (sectionName : String) : Nat :=
  offsetBehind 8 (codeIn (d.programs.take position) sectionName)

def mapSymbols (d : Description) : List Elf.DraftSymbol :=
  d.maps.zipIdx.map fun (m, position) =>
    ⟨m.name, false, d.mapsNumber, d.recordOffset position, d.recordSize⟩

def programSymbols (d : Description) : List Elf.DraftSymbol :=
  d.programs.zipIdx.filterMap fun (p, position) => p.name.map fun name =>
    ⟨name, true, d.programsNumber p.sectionName, d.codeOffset position p.sectionName,
      p.code.length⟩

-- The symbols that maps and programs are referred to by.
def definedSymbols (d : Description) : List Elf.DraftSymbol :=
  d.mapSymbols ++ d.programSymbols

-- Where the pin path at `position` among all of them begins.
def textOffset (d : Description) (position : Nat) : Nat :=
  ((d.pinned.take position).filterMap (·.1.pinText?)).flatten.length

def textSymbols (d : Description) : List Elf.DraftSymbol :=
  d.pinned.zipIdx.map fun ((m, _), position) =>
    ⟨".L" ++ m.name ++ ".path", false, d.textsNumber, d.textOffset position,
      (m.pinText?.getD []).length⟩

-- All names that something refers to.
def referenced (d : Description) : List String :=
  (if d.hasReferences then d.maps.filterMap MapSpec.inner else []) ++
    d.programs.flatMap fun p => p.loads.map Prod.snd

-- Names that are referred to and not defined.
def undefinedNames (d : Description) : List String :=
  (d.referenced.filter fun name => !d.definedSymbols.any (·.name = name)).eraseDups

def symbols (d : Description) : List Elf.DraftSymbol :=
  d.definedSymbols ++ d.textSymbols ++ d.undefinedNames.map fun name => ⟨name, false, 0, 0, 0⟩

-- The number of the symbol that a name refers to: the last one defined counts.
def symbolNumber (d : Description) (name : String) : Nat :=
  match (d.definedSymbols.zipIdx 1).reverse.find? (·.1.name = name) with
  | some (_, number) => number
  | none =>
    d.definedSymbols.length + d.textSymbols.length + d.undefinedNames.idxOf name + 1

-- The references from the `maps` section, record by record.
def mapRelocations (d : Description) : List (Nat × Nat) :=
  if d.hasReferences then
    d.maps.zipIdx.flatMap fun (m, position) =>
      let inner := m.inner.toList.map fun name =>
        (d.recordOffset position + innerField, d.symbolNumber name)
      let pin := if m.pin.isSome then
          [(d.recordOffset position + pinField,
            d.definedSymbols.length + d.pinned.findIdx (·.2 = position) + 1)]
        else []
      inner ++ pin
  else []

-- The references from the code in one section, program by program.
def codeRelocations (d : Description) (sectionName : String) : List (Nat × Nat) :=
  (d.programs.zipIdx.filter (·.1.sectionName = sectionName)).flatMap fun (p, position) =>
    p.loads.map fun (index, name) =>
      (d.codeOffset position sectionName + Instruction.size * index, d.symbolNumber name)

def draft (d : Description) : Elf.Draft where
  symbols := d.symbols
  sections :=
    d.license.toList.map (fun license =>
      ⟨"license", .data, Text.encode license ++ [0], []⟩) ++
    d.version.toList.map (fun version =>
      ⟨"version", .data, Bytes.ofNat 4 version.toNat, []⟩) ++
    (if d.maps.isEmpty then [] else
      [⟨"maps", .data, layOut 4 (d.maps.map (MapSpec.record d.recordSize)),
        d.mapRelocations⟩]) ++
    d.sectionNames.map (fun name =>
      ⟨name, .code, layOut 8 (codeIn d.programs name), d.codeRelocations name⟩) ++
    [⟨".rodata.str1.1", .texts, (d.pinned.filterMap (·.1.pinText?)).flatten, []⟩]

-- The file that a writer makes of the description.
def build (write : Elf.Draft → Bytes) (d : Description) : Bytes := write d.draft

end Description

-- `r0 = 2; exit`: lets every packet pass.
def passCode : Bytes :=
  [0xB7, 0x00, 0, 0, 2, 0, 0, 0, Instruction.exit, 0, 0, 0, 0, 0, 0, 0]

-- `loads` 64-bit loads into r1, at instructions 0, 2, 4 and so on, then `passCode`.
def loadingCode (loads : Nat) : Bytes :=
  (List.replicate loads
    [Instruction.loadImmediate64, 0x01, 0, 0, 0, 0, 0, 0, 0, 0, 0, 0, 0, 0, 0, 0]).flatten ++
    passCode

-- Six maps of different kinds and four programs that use some of them.
def Description.sample : Description where
  license := some "GPLv2"
  maps := [
    { name := "txcnt", kindNumber := MapKind.perCpuArray.number, keySize := 4, valueSize := 8,
      maxEntries := 100, pin := some "txcnt" },
    { name := "rxcnt", kindNumber := MapKind.hash.number, keySize := 8, valueSize := 4,
      maxEntries := 50 },
    { name := "match_maps_tx", kindNumber := MapKind.arrayOfMaps.number, keySize := 4,
      valueSize := 4, maxEntries := 10, inner := some "array_map" },
    { name := "match_maps_rx", kindNumber := MapKind.hashOfMaps.number, keySize := 4,
      valueSize := 4, maxEntries := 20, inner := some "array_map", pin := some "match_maps_rx" },
    { name := "programs", kindNumber := MapKind.programArray.number, keySize := 4, valueSize := 4,
      maxEntries := 2 },
    { name := "array_map", kindNumber := MapKind.array.number, keySize := 4, valueSize := 8,
      maxEntries := 4 }]
  programs := [
    { name := some "xdp0", sectionName := "xdp", code := loadingCode 2,
      loads := [(0, "rxcnt"), (2, "txcnt")] },
    { name := some "xdp1", sectionName := "xdp", code := loadingCode 1,
      loads := [(0, "programs")] },
    { name := some "xdp_head_meta2", sectionName := "xdp_head_meta", code := loadingCode 1,
      loads := [(0, "match_maps_tx")] },
    { name := some "xdp_root3", sectionName := "xdp_root", code := passCode }]

end EbpfManager.Object
