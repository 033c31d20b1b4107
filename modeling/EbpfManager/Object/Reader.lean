import EbpfManager.Object.ProgramSection

namespace EbpfManager.Object

open Elf

-- The kernel version that stands for any kernel.
def anyKernel : UInt32 := 0xFFFFFFFE

-- The license: a text that is not empty, up to its final zero.
def readLicense (contents : Bytes) : Except FormatError String :=
  match (Text.ofTerminated? contents).filter (· ≠ "") with
  | some license => .ok license
  | none => .error (.badLicense contents)

-- The kernel version: exactly one number of 32 bits.
def readVersion (order : ByteOrder) (contents : Bytes) : Except FormatError (Option UInt32) :=
  if contents.length = 4 then
    let version := UInt32.ofNat (order.toNat contents)
    .ok (if version = anyKernel then none else some version)
  else .error (.badKernelVersion contents)

-- Without a `license` section the license is GPL.
def license (image : Image) : Except FormatError String :=
  match image.sectionNamed? "license" with
  | none => .ok "GPL"
  | some (s, _) => do readLicense (← contentsOf s)

def kernelVersion (image : Image) : Except FormatError (Option UInt32) :=
  match image.sectionNamed? "version" with
  | none => .ok none
  | some (s, _) => do readVersion image.order (← contentsOf s)

-- The number of the `maps` section and its records.
def maps (image : Image) : Except FormatError (Option Nat × List MapRecord) :=
  match image.sectionNamed? "maps" with
  | none => .ok (none, [])
  | some (s, number) => do
    let records ← readMaps image number s
    .ok (some number, records)

-- The programs of section `number`: none if it holds no code, or code of no known kind.
def programsIn (image : Image) (license : String) (mapsNumber : Option Nat)
    (records : List MapRecord) (s : Section) (number : Nat) :
    Except FormatError (List ProgramDefinition) :=
  if !s.isCode then .ok []
  else match s.name.bind Text.decode? with
    | none => .error (.badSection s!"#{number}")
    | some name =>
      match if name = ".text" then none else ProgramKind.ofSectionName? name with
      | none => .ok []
      | some kind => do
        let contents ← contentsOf s
        let s : ProgramSection := ⟨number, name, kind, license, contents, s.relocations⟩
        s.programs image mapsNumber records

-- The definitions in a file. The section with number 0 holds no programs.
def ofImage (image : Image) : Except FormatError ObjectFile := do
  let license ← license image
  let kernelVersion ← kernelVersion image
  let (mapsNumber, records) ← maps image
  let programs ← (image.sections.zipIdx.drop 1).mapM fun (s, number) =>
    programsIn image license mapsNumber records s number
  .ok ⟨license, kernelVersion, records.map MapRecord.definition, programs.flatten⟩

end EbpfManager.Object

namespace EbpfManager

-- The definitions in the octets of an object file.
def ObjectFile.parse (file : Bytes) : Except FormatError ObjectFile :=
  match Elf.Image.read? file with
  | none => .error .unreadable
  | some image => Object.ofImage image

end EbpfManager
