import Mathlib.Data.Nat.Notation

/-!
# The edge

`mpsrc/wavy_edge_epoll.h`. An fd is put into the edge with `EPOLLONESHOT`: an event is reported
once, and again only after the fd is reactivated.
-/

namespace Kumofs.Wavy

/-- `MP_WAVY_EDGE_BACKLOG_SIZE`. -/
def backlogSize : ℕ := 256

/-- What an edge has for an fd. -/
inductive Notify
  | unwatched
  | armed
  /-- The event was reported, and the fd not reactivated. -/
  | shot
  deriving DecidableEq, Repr

namespace Notify

/-- `EPOLL_CTL_ADD`, which fails for an fd that the edge has. -/
def addNotify (m : Notify) (ok : Bool) : Option Notify :=
  if ok = true ∧ m = .unwatched then some .armed else none

/-- `EPOLL_CTL_MOD`; nobody looks at whether it failed. -/
def shotReactivate (m : Notify) (ok : Bool) : Notify :=
  if ok = true ∧ m ≠ .unwatched then .armed else m

end Notify

end Kumofs.Wavy
