import EbpfManager.Program.Basic
import EbpfManager.Text.Blank

namespace EbpfManager.Program

open Attempt

def attributes (p : Program) : ProgramAttributes where
  name := p.name
  kind := p.kind
  code := p.code
  license := p.license
  kernelVersion := p.kernelVersion

-- Whether it was the verifier that refused a program.
def ByVerifier (cause : CallError) : Prop :=
  cause.errno? = some Errno.accessDenied ∨ cause.errno? = some Errno.invalid

instance (cause : CallError) : Decidable (ByVerifier cause) :=
  inferInstanceAs (Decidable (_ ∨ _))

-- The text of a verifier's log: up to the first zero, without white space at the end.
def logText (log : Option LogBuffer) : String :=
  let written := (log.map LogBuffer.written).getD []
  String.ofList (Text.trimEnd (Text.ofPadded written).toList)

-- The second try, with a log.
def submitLogged (p : Program) : Attempt Fd := do
  let (reply, log) ← perform (.programLoad p.attributes (some (.zeroed p.logSize)))
  accept (.verifierRejected p.name (logText log)) reply

-- Hands the program over to the kernel. A program that the verifier refuses is handed over once
-- more, now with room for the verifier's log.
def submit (p : Program) : Attempt Fd := do
  let (reply, _) ← perform (.programLoad p.attributes none)
  match reply with
  | .ok fd => return fd
  | .error cause =>
    if ¬ByVerifier cause then throw (.kernelRejected .programLoad p.name cause)
    else if p.logSize = 0 then throw (.verifierRejected p.name "" cause)
    else p.submitLogged

-- Loads the program.
def load : Edit Program Unit := do
  let p ← Edit.object
  match p.state with
  | .closed => throw (.alreadyClosed p.name)
  | .loaded | .attached => throw (.alreadyLoaded p.name)
  | .unloaded =>
    let fd ← p.submit
    Edit.change ({ · with handle := .live fd })
    debug s!"loaded program `{p.name}` ({p.kind.name}) fd {fd}"

-- Attaches an XDP program to an interface with the given flags.
def attachWith (iface : String) (flags : XdpFlags) : Edit Program Unit := do
  let p ← Edit.object
  let fd ← (p.liveFd : Attempt Fd)
  if let some attachment := p.attachment then
    throw (.attachFailed p.name iface (.alreadyAttached attachment.iface))
  if p.kind ≠ .xdp then throw (.unsupported .attach p.name none)
  match ← perform (.interfaceIndex iface) with
  | none => throw (.interfaceNotFound iface)
  | some interface =>
    let reply ← perform (.xdpAttach fd interface flags)
    let link ← accept (fun cause =>
      if cause.errno? = some Errno.noDevice then .interfaceNotFound iface
      else .attachFailed p.name iface cause) reply
    debug s!"attached program `{p.name}` to `{iface}` (ifindex {interface})"
    Edit.change ({ · with attachment := some ⟨iface, interface, link⟩ })

-- Attaches an XDP program with the flags it was made with.
def attach (iface : String) : Edit Program Unit := do
  let p ← Edit.object
  attachWith iface p.xdpFlags

-- Takes the program off its interface. It stays loaded.
def detach : Edit Program Unit := do
  let p ← Edit.object
  match p.attachment with
  | none => throw (.notAttached p.name)
  | some attachment =>
    Edit.change ({ · with attachment := none })
    accept (.syscall .close) (← perform (.close attachment.link))
    debug (s!"detached program `{p.name}` from `{attachment.iface}` " ++
      s!"(ifindex {attachment.interface})")

-- Makes the program known under a path.
def pin (path : Path) : Edit Program Unit := do
  let p ← Edit.object
  let fd ← (p.liveFd : Attempt Fd)
  accept (.syscall .objectPin) (← perform (.objectPin fd path))
  debug s!"pinned program `{p.name}` at {path.text}"
  Edit.change ({ · with pinPath := some path })

-- Removes the file that the program is pinned at.
def unpin : Edit Program Unit := do
  let p ← Edit.object
  match p.pinPath with
  | none => throw (.notPinned p.name)
  | some path =>
    files (.file path) (·.remove path)
    Edit.change ({ · with pinPath := none })
    debug s!"unpinned program `{p.name}` from {path.text}"

-- Detaches the program and gives up its handle. Pins stay.
def close : Edit Program Unit := do
  let p ← Edit.object
  if p.handle = .closed then throw (.alreadyClosed p.name)
  if p.attachment.isSome then detach
  Edit.change ({ · with handle := .closed })
  match p.handle.fd? with
  | none => return
  | some fd =>
    accept (.syscall .close) (← perform (.close fd))
    debug s!"closed program `{p.name}` (fd {fd})"

end EbpfManager.Program
