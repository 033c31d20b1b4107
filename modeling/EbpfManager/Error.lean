import EbpfManager.Encoding
import EbpfManager.Kernel.Request
import EbpfManager.Object.FormatError

namespace EbpfManager

-- What a map or a program cannot do because of its kind.
inductive Unsupported
  | attach
  | openUnknownKind
  | delete
  | lookupInteger
  | lookupPerCpu
  deriving DecidableEq, Repr

def Unsupported.text : Unsupported → String
  | attach => "attach"
  | openUnknownKind => "opening a map of unknown type"
  | delete => "delete"
  | lookupInteger => "lookup_int"
  | lookupPerCpu => "lookup_per_cpu"

-- Why a key or a value does not suit a map.
inductive Misfit
  | encoding (error : EncodeError)
  -- Keys of this width are no numbers.
  | noIndex (width : Nat)
  | length (expected actual : Nat)
  deriving DecidableEq, Repr

def Misfit.text : Misfit → String
  | encoding error => error.message
  | noIndex width => s!"{width}-byte keys are not array indices"
  | length expected actual => s!"expected {expected} bytes, got {actual}"

-- The cause of a failure.
inductive Error
  | format (error : FormatError)
  | file (path : Path) (cause : CallError)
  | unresolvedReference (program map : String)
  | kernelRejected (call : Call) (name : String) (cause : CallError)
  | verifierRejected (name log : String) (cause : CallError)
  | alreadyClosed (name : String)
  | alreadyLoaded (name : String)
  | objectAlreadyLoaded
  | notLoaded (name : String)
  | notCreated (name : String)
  | notAttached (name : String)
  | notPinned (name : String)
  | notFound (name : String)
  | keyExists (name : String)
  | keyOutOfRange (name : String) (key maxEntries : Nat)
  | invalidKey (name : String) (reason : Misfit)
  | invalidValue (name : String) (reason : Misfit)
  | unsupported (operation : Unsupported) (name : String) (kind : Option MapKind)
  | interfaceNotFound (iface : String)
  | attachFailed (name iface : String) (cause : CallError)
  | syscall (call : Call) (cause : CallError)
  -- A size that does not fit into 64 bits, or a value divided into slots of no size.
  | sizeOverflow
  deriving DecidableEq, Repr

namespace Error

-- The cause that the system gave, where there is one.
def cause? : Error → Option CallError
  | file _ cause | kernelRejected _ _ cause | verifierRejected _ _ cause | attachFailed _ _ cause
  | syscall _ cause => some cause
  | _ => none

def message : Error → String
  | format _ => "malformed object file"
  | file path _ => s!"error reading `{path.text}`"
  | unresolvedReference program map =>
    s!"program `{program}` references map `{map}`, which is not loaded"
  | kernelRejected call name _ => s!"the kernel rejected {call.name} for `{name}`"
  | verifierRejected name log _ => s!"the verifier rejected program `{name}`:\n{log}"
  | alreadyClosed name => s!"`{name}` is already closed"
  | alreadyLoaded name => s!"program `{name}` is already loaded"
  | objectAlreadyLoaded => "an object file is already loaded into this system"
  | notLoaded name => s!"program `{name}` is not loaded"
  | notCreated name => s!"map `{name}` has not been created"
  | notAttached name => s!"program `{name}` is not attached"
  | notPinned name => s!"`{name}` is not pinned"
  | notFound name => s!"key not found in map `{name}`"
  | keyExists name => s!"key already exists in map `{name}`"
  | keyOutOfRange name key maxEntries =>
    s!"key {key} is out of range for map `{name}` ({maxEntries} entries)"
  | invalidKey name reason => s!"invalid key for map `{name}`: {reason.text}"
  | invalidValue name reason => s!"invalid value for map `{name}`: {reason.text}"
  | unsupported operation name kind =>
    let kindText := match kind with
      | some kind => "Some(" ++ kind.name ++ ")"
      | none => "None"
    s!"{operation.text} is not supported on `{name}` ({kindText})"
  | interfaceNotFound iface => s!"network interface `{iface}` does not exist"
  | attachFailed name iface _ => s!"failed to attach program `{name}` to `{iface}`"
  | syscall call _ => s!"{call.name} failed"
  | sizeOverflow => "a size does not fit into 64 bits"

end Error

end EbpfManager
