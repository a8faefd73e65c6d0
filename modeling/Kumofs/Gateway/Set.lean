import Kumofs.Server.Store

/-!
# What the gateway makes of the response to a `Set`

The callback of `Set` of `logic/gateway/mod_store.cc`.
-/

namespace Kumofs.Gateway

open Server (Response)

/-- `gate::res_set` but for what it repeats of the request: `cas_success` false, `cas_success` true
with a clocktime, or `error`. -/
inductive SetResult
  | casFailed
  | stored (ct : ClockTime)
  | error
  deriving DecidableEq

/-- What follows the callback: `retry_after`, or the result for the caller. -/
inductive Next
  | retry
  | report (r : SetResult)
  deriving DecidableEq

/-- `RPC_REPLY_IMPL(mod_store_t, Set)`, with what the retry object has counted before and after;
`none` is a call that got no response. An error comes with a nil result, as `null` does. -/
def resSet (limit retried : UInt16) : Option Response → UInt16 × Next
  | some (.bool false) => (retried, .report .casFailed)
  -- `as<ClockTime>` throws a type error, which `GATEWAY_CATCH` reports
  | some (.bool true) => (retried, .report .error)
  | some (.clocktime ct) => (retried, .report (.stored ct))
  | some .null | some (.error _) | none =>
    (retried + 1, if retried + 1 ≤ limit then .retry else .report .error)

end Kumofs.Gateway
