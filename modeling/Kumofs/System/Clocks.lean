import Kumofs.Clock
import Kumofs.Lib.Run
import Mathlib.Logic.Function.Basic

/-!
# Clocks that messages adjust

Managers and servers as far as their clocks go, all at one physical time. A node issues a
clocktime, and the `ReplicateSet` or `ReplicateDelete` it may send for it carries the clock of that
clocktime; every other message carries a clock of its own from `clock_incr`. A message is received
by any node at any time, any number of times, or never. A node that is started again with a fresh
clock is another node.

What happened before is kept beside: a node's past are the clocktimes that were issued before what
it does next, by itself or by a node that a chain of messages leads from, and a message's past is
that of its sender when the clock was taken.
-/

namespace Kumofs

namespace Clocks

structure Node where
  logic : ClockLogic
  past : List ClockTime
  /-- The clocks it received that were of a clocktime already. -/
  taken : List UInt32
  deriving DecidableEq

structure Message where
  /-- `adjust_clock`. -/
  clock : UInt32
  past : List ClockTime
  /-- A clocktime with this clock was issued. -/
  taken : Bool
  deriving DecidableEq

/-- A clocktime that was issued, and the past of its issue. -/
structure Issue where
  ct : ClockTime
  past : List ClockTime
  deriving DecidableEq

end Clocks

structure Clocks (ν : Type*) where
  node : ν → Clocks.Node
  messages : List Clocks.Message
  issues : List Clocks.Issue

namespace Clocks

variable {ν : Type*} [DecidableEq ν]

inductive Act (ν : Type*)
  /-- `clock_incr_clocktime`. -/
  | issue (n : ν)
  /-- `clock_incr`, for a message. -/
  | send (n : ν)
  /-- `clock_update` with the clock of message `k`. -/
  | receive (n : ν) (k : ℕ)

/-- Clocks of any values at one time. -/
def init (clock : ν → UInt32) (time : UInt32) : Clocks ν :=
  ⟨fun n => ⟨⟨clock n, time⟩, [], []⟩, [], []⟩

def setNode (s : Clocks ν) (n : ν) (x : Node) : Clocks ν :=
  { s with node := Function.update s.node n x }

def step (s : Clocks ν) : Act ν → Option (Clocks ν)
  | .issue n =>
    let x := s.node n
    let r := x.logic.clockIncrClocktime
    some
      { s.setNode n { x with logic := r.2, past := r.1 :: x.past } with
        messages := s.messages ++ [⟨r.1.clock, r.1 :: x.past, true⟩]
        issues := s.issues ++ [⟨r.1, x.past⟩] }
  | .send n =>
    let x := s.node n
    let r := x.logic.clockIncr
    some
      { s.setNode n { x with logic := r.2 } with
        messages := s.messages ++ [⟨r.1, x.past, decide (r.1 ∈ x.taken)⟩] }
  | .receive n k => s.messages[k]?.map fun m =>
    let x := s.node n
    s.setNode n
      { logic := x.logic.clockUpdate m.clock
        past := m.past ++ x.past
        taken := if m.taken then m.clock :: x.taken else x.taken }

/-- What happened before the issue of a clocktime has smaller ones. -/
def Ordered (s : Clocks ν) : Prop := ∀ i ∈ s.issues, ∀ a ∈ i.past, a < i.ct

end Clocks

end Kumofs
