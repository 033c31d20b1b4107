namespace EbpfManager

-- A handle's number.
abbrev Fd := Int

-- Where an owned handle stands. A handle that was given up is never taken up again.
inductive Handle
  | unset
  | live (fd : Fd)
  | closed
  deriving DecidableEq, Repr

namespace Handle

-- The handle's number while it is open.
def fd? : Handle → Option Fd
  | live fd => some fd
  | _ => none

-- The number that the owner still has to release, and the state after that.
def take (h : Handle) : Option Fd × Handle :=
  (h.fd?, closed)

@[simp] theorem take_fst (h : Handle) : h.take.1 = h.fd? := rfl

@[simp] theorem take_snd (h : Handle) : h.take.2 = closed := rfl

end Handle

end EbpfManager
