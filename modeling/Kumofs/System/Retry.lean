import Mathlib.Data.List.ReduceOption
import Kumofs.Gateway.Set
import Kumofs.System.Swap

/-!
# A `CAS` request with its retries

The gateway sends the request of one `CAS` to a server, and sends it again when the call ends
without a result. The coordinators, those of other requests among them, run beside it. A call that
the gateway has given up may still reach a server.
-/

namespace Kumofs

structure Retrying where
  net : Swapping
  /-- The call that the gateway waits for, and its handler if it has reached a server. -/
  current : Option (Option ℕ)
  /-- The calls before it. -/
  past : List (Option ℕ)
  /-- `m_limit` of the retry object. -/
  retried : UInt16
  /-- What the caller has been told. -/
  result : Option Gateway.SetResult

namespace Retrying

/-- The value of the request with the clocktime to compare with, and `cfg_set_retry_num`. -/
structure Config extends StoreNet.Config where
  val : DBValue
  gatewayRetryNum : UInt16

inductive Act
  | net (act : Swapping.Act)
  /-- `retry->call`, at once or from `retry_after`. -/
  | call
  | arrive (a : Address)
  /-- Call `k` of those given up reaches a server. -/
  | arriveLate (k : ℕ) (a : Address)
  | reply
  /-- The call times out, or its session is lost. -/
  | lose

variable (cfg : Config)

def init (srv : Address → Server.State) : Retrying :=
  ⟨.init cfg.toConfig srv, none, [], 0, none⟩

/-- The handler of the call waited for. -/
def handler (s : Retrying) : Option Server.Handler :=
  s.current.join.bind fun i => s.net.handlers[i]?

/-- The callback of the call waited for, with the response if there is one. -/
def callback (s : Retrying) (res : Option Server.Response) : Retrying :=
  let r := Gateway.resSet cfg.gatewayRetryNum s.retried res
  { s with
    current := none
    past := s.past ++ s.current.toList
    retried := r.1
    result := match r.2 with
      | .retry => none
      | .report x => some x }

def step (s : Retrying) : Act → Option Retrying
  | .net act => (s.net.step cfg.toConfig act).map fun n => { s with net := n }
  | .call =>
    if s.current = none ∧ s.result = none then some { s with current := some none } else none
  | .arrive a =>
    if s.current = some none then
      (s.net.step cfg.toConfig (.request a (.cas cfg.val))).map fun n =>
        { s with net := n, current := some (some s.net.handlers.length) }
    else none
  | .arriveLate k a =>
    if s.past[k]? = some none then
      (s.net.step cfg.toConfig (.request a (.cas cfg.val))).map fun n =>
        { s with net := n, past := s.past.set k (some s.net.handlers.length) }
    else none
  -- a call has one reply: what a handler sends after its first response is dropped
  | .reply => s.handler.bind fun h =>
    h.responses.getLast?.map fun r => s.callback cfg (some r)
  | .lose => s.current.map fun _ => s.callback cfg none

/-- The handlers of the request. -/
def attempts (s : Retrying) : List ℕ := (s.past ++ s.current.toList).reduceOption

/-- Where the caller is told that the `CAS` failed, no attempt has put its value. -/
def FailedCleanly (s : Retrying) : Prop :=
  s.result = some .casFailed → ∀ i ∈ s.attempts, ∀ h ∈ s.net.handlers[i]?, h.wrote = false

end Retrying

end Kumofs
