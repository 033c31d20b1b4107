import EbpfManager.Map.Basic

namespace EbpfManager.Map

open Attempt

-- Whether what the kernel reports is the map declared.
def Agrees (m : Map) (info : MapInfo) : Prop :=
  info.kindNumber = m.kind.number ∧ info.keySize.toNat = m.keySize ∧
    info.valueSize.toNat = m.valueSize ∧ info.maxEntries.toNat = m.maxEntries

instance (m : Map) (info : MapInfo) : Decidable (m.Agrees info) :=
  inferInstanceAs (Decidable (_ ∧ _))

-- Takes over the map pinned at a path.
def openPinned (path : Path) : Edit Map Unit := do
  let m ← Edit.object
  let fd ← accept (.kernelRejected .objectGet m.name) (← perform (.objectGet path))
  let info ← infoOrRelease (.kernelRejected .mapInfo m.name) fd
  if m.Agrees info then
    Edit.change ({ · with handle := .live fd })
    debug s!"reusing map `{m.name}` pinned at {path.text}"
  else
    release fd
    throw (.kernelRejected .objectGet m.name (.pinMismatch path m.name))

-- Makes the map known under a path.
def pin (path : Path) : Edit Map Unit := do
  let m ← Edit.object
  let fd ← m.liveFd
  accept (.syscall .objectPin) (← perform (.objectPin fd path))
  debug s!"pinned map `{m.name}` at {path.text}"
  Edit.change ({ · with pinPath := some path })

-- A map like those that a map of maps is to hold. The kernel looks at it when the map of maps is
-- created.
def createTemplate (m : Map) : Attempt (Option Fd) := do
  if m.kind.isMapOfMaps then
    match m.inner with
    | none => throw (.format (.missingInnerMap m.name))
    | some shape =>
      let attributes : MapAttributes := ⟨m.name ++ "_inner", shape, none⟩
      let fd ← accept (.kernelRejected .mapCreate m.name) (← perform (.mapCreate attributes))
      return some fd
  else return none

-- Releases the template, which nothing needs any more. A failure is only noted.
def releaseTemplate (m : Map) : Option Fd → Attempt Unit
  | none => pure ()
  | some fd => do
    if let .error cause ← perform (.close fd) then
      note .warn s!"failed to close inner map template of `{m.name}`: {cause.message}"

-- A new map of the kernel.
def createNew : Edit Map Unit := do
  let m ← Edit.object
  let template ← m.createTemplate
  let reply ← perform (.mapCreate ⟨m.name, m.shape, template⟩)
  m.releaseTemplate template
  let fd ← accept (.kernelRejected .mapCreate m.name) reply
  Edit.change ({ · with handle := .live fd })
  debug (s!"created map `{m.name}` ({m.kind.name}, key {m.keySize} value {m.valueSize} " ++
    s!"max {m.maxEntries}) fd {fd}")

-- Opens the map: nothing happens if it is open already. A map with a pin path takes over what is
-- pinned there, provided that it has the kind and the sizes declared; otherwise it is created and
-- pinned there.
def create : Edit Map Unit := do
  let m ← Edit.object
  match m.handle with
  | .live _ => return
  | .closed => throw (.alreadyClosed m.name)
  | .unset =>
    let cpus ← m.countCpus
    Edit.change ({ · with cpus })
    match m.pinPath with
    | none => createNew
    | some path =>
      let h ← (get : Attempt Host)
      if h.machine.files.exists? path then openPinned path
      else
        createNew
        pin path

-- Removes the file that the map is pinned at. The map stays open.
def unpin : Edit Map Unit := do
  let m ← Edit.object
  match m.pinPath with
  | none => throw (.notPinned m.name)
  | some path =>
    files (.file path) (·.remove path)
    Edit.change ({ · with pinPath := none })
    debug s!"unpinned map `{m.name}` from {path.text}"

-- Gives up the handle. Pins stay.
def close : Edit Map Unit := do
  let m ← Edit.object
  match m.handle with
  | .closed => throw (.alreadyClosed m.name)
  | .unset => Edit.change ({ · with handle := .closed })
  | .live fd =>
    Edit.change ({ · with handle := .closed })
    accept (.syscall .close) (← perform (.close fd))
    debug s!"closed map `{m.name}` (fd {fd})"

end EbpfManager.Map
