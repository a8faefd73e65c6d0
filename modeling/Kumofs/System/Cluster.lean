import Kumofs.Lib.Run
import Kumofs.Server.Replace
import Kumofs.Server.Store

/-!
# Servers with many keys

Any number of servers and of `Set` and `Delete` handlers of any keys, the messages between the
nodes that carry a clock, and replaces that scan, stream and delete records. A call that was sent
reaches its replica at any time and any number of times, so that retries are part of it, and
replies, which touch neither a clock nor a database, are not.
-/

namespace Kumofs

structure Cluster where
  srv : Address → Server.State
  handlers : List (DBKey × Server.Handler)
  /-- The clocks of the messages that are not replications. -/
  clocks : List UInt32
  /-- The records on their way in the streams of replaces. -/
  offers : List Server.Offer

namespace Cluster

inductive Act
  | request (a : Address) (key : DBKey) (op : Server.Op)
  | step (i : ℕ)
  /-- Call `c` of handler `i` reaches its replica. -/
  | deliver (i c : ℕ)
  /-- `clock_incr`, for a message. -/
  | send (a : Address)
  | receive (a : Address) (j : ℕ)
  | copy (a : Address) (src dst : HashSpace) (now : ClockTime)
  | fullCopy (a : Address) (dst : HashSpace) (now : ClockTime)
  | submit (j : ℕ)
  | delete (a : Address) (hs : HashSpace) (now : ClockTime)
  | hashSpaces (a : Address) (whs rhs : HashSpace)

def init (srv : Address → Server.State) : Cluster := ⟨srv, [], [], []⟩

def setSrv (s : Cluster) (a : Address) (x : Server.State) : Cluster :=
  { s with srv := Function.update s.srv a x }

def setStorage (s : Cluster) (a : Address) (x : Storage) : Cluster :=
  s.setSrv a { s.srv a with storage := x }

/-- Call `c` of handler `i`, if it was sent. -/
def sentCall (s : Cluster) (i c : ℕ) : Option (DBKey × Server.Handler × Server.Call) :=
  s.handlers[i]?.bind fun h =>
    (h.2.calls[c]?.filter (·.status ≠ .unsent)).map (h.1, h.2, ·)

def step (s : Cluster) : Act → Option Cluster
  | .request a key op => some { s with handlers := s.handlers ++ [(key, .init a op)] }
  | .step i => s.handlers[i]?.map fun h =>
    let r := h.2.step h.1 (s.srv h.2.self)
    { s.setSrv h.2.self r.1 with handlers := s.handlers.set i (h.1, r.2.1) }
  | .deliver i c => (s.sentCall i c).map fun m =>
    s.setSrv m.2.2.dest
      (Server.replicate m.2.2.dest m.1 (s.srv m.2.2.dest) (m.2.1.message m.2.2.byRhs)).1
  | .send a =>
    let r := (s.srv a).clock.clockIncr
    some { s.setSrv a { s.srv a with clock := r.2 } with clocks := s.clocks ++ [r.1] }
  | .receive a j => s.clocks[j]?.map fun o =>
    s.setSrv a { s.srv a with clock := (s.srv a).clock.clockUpdate o }
  | .copy a src dst now =>
    let r := Server.replaceCopy a src dst now (s.srv a).storage
    some { s.setStorage a r.1 with offers := s.offers ++ r.2 }
  | .fullCopy a dst now =>
    let r := Server.fullReplaceCopy dst now (s.srv a).storage
    some { s.setStorage a r.1 with offers := s.offers ++ r.2 }
  | .submit j => s.offers[j]?.map fun o =>
    s.setStorage o.dest (Server.submitMessage (s.srv o.dest).storage o)
  | .delete a hs now =>
    some (s.setStorage a (Server.replaceDelete a hs now (s.srv a).storage))
  | .hashSpaces a whs rhs => some (s.setSrv a { s.srv a with whs := whs, rhs := rhs })

/-- The clocktime that a server would issue next is newer than every entry it stores. -/
def Dominates (s : Cluster) : Prop :=
  ∀ a key val, (s.srv a).storage.db.lookup key = some val →
    Storage.clocktimeOf val < (s.srv a).clock.clockIncrClocktime.1

end Cluster

end Kumofs
