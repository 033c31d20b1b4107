import EbpfManager.Host

namespace EbpfManager

-- Flags for attaching to the XDP hook.
abbrev XdpFlags := UInt32

namespace XdpFlags

-- Flags that have a meaning are below this.
def limit : Nat := 32

-- Flags without a bit that has no meaning.
def ofBits? (n : Nat) : Option XdpFlags :=
  if n < limit then some (.ofNat n) else none

end XdpFlags

-- A link to an interface.
structure Attachment where
  iface : String
  interface : Nat
  link : Fd
  deriving DecidableEq, Repr

inductive ProgramState
  | unloaded
  | loaded
  | attached
  | closed
  deriving DecidableEq, Repr

-- It owns the handle of the loaded program and, while it is attached, the handle of the link. It is
-- attached only while it is loaded.
structure Program where
  name : String
  kind : ProgramKind
  -- The section of the object that the program comes from.
  sectionName : String := ""
  license : String
  -- Loads of maps carry handles already.
  code : Bytes
  kernelVersion : UInt32
  -- Room for the verifier's log; without any the log is not asked for.
  logSize : Nat := 65536
  xdpFlags : XdpFlags := 0
  handle : Handle := .unset
  attachment : Option Attachment := none
  pinPath : Option Path := none
  deriving DecidableEq, Repr

namespace Program

def state (p : Program) : ProgramState :=
  match p.handle with
  | .unset => .unloaded
  | .closed => .closed
  | .live _ => if p.attachment.isSome then .attached else .loaded

-- The handle, provided it is open.
def liveFd (p : Program) : Except Error Fd :=
  match p.handle with
  | .live fd => .ok fd
  | .unset => .error (.notLoaded p.name)
  | .closed => .error (.alreadyClosed p.name)

-- Releases the link, if there is one. A failure is only noted.
def dropLink (p : Program) (h : Host) : Host :=
  match p.attachment with
  | none => h
  | some attachment =>
    match h.perform (.close attachment.link) with
    | (.ok (), h) => h
    | (.error cause, h) =>
      h.note .warn
        s!"failed to detach program `{p.name}` from `{attachment.iface}`: {cause.message}"

-- Releases the link and then the handle, as far as they are open. Failures are only noted.
def drop (p : Program) (h : Host) : Host :=
  let h := p.dropLink h
  match p.handle.fd? with
  | none => h
  | some fd =>
    match h.perform (.close fd) with
    | (.ok (), h) => h
    | (.error cause, h) =>
      h.note .warn s!"failed to close program `{p.name}` (fd {fd}): {cause.message}"

end Program

end EbpfManager
