import Kumofs.Gateway.Set
import Kumofs.Gateway.Store
import Kumofs.Lib.Run
import Kumofs.System.Exchange

/-!
# A request of the gateway

`Get`, `Set` and `Delete` of `logic/gateway/mod_store.cc` with the callbacks of their calls and
`retry_after`, and the updates of the hash spaces, `update_whs` and `update_rhs`. An exception is
answered by `SUBMIT_CATCH` where a request is submitted and by `GATEWAY_CATCH` in a callback; what a
timer throws is dropped by `step_do_after`.

The session layer runs the callback of a call once, with a response or, when the call times out or
its session is lost, without. What a server sends back is open.
-/

namespace Kumofs.Gateway

open Server (Response)

/-- A `Get` of a key that is cached is sent as `GetIfModified`. -/
inductive Query
  | get
  | getIfModified (cached : DBValue)
  | set
  | delete
  deriving DecidableEq

/-- `gate::res_get`, `gate::res_set` and `gate::res_delete` but for what they repeat of the
request. -/
inductive Result
  | value (val : DBValue)
  | absent
  | set (r : SetResult)
  | deleted (b : Bool)
  | error
  deriving DecidableEq

/-- What follows the callback of a call: the result for the user, a call at once, or
`retry_after`. -/
inductive Then
  | report (r : Result)
  | call (offset : ℕ)
  | retryAfter (offset : ℕ)
  deriving DecidableEq

structure Config where
  getRetryNum : UInt16
  setRetryNum : UInt16
  deleteRetryNum : UInt16

/-! ## The callbacks

Each takes what the retry object has counted, and returns it. `none` is a call without a
response. -/

/-- The error branch of `Get`: the next replica at once, after the last one the first again. -/
def getError (cfg : Config) (retried : UInt16) : UInt16 × Then :=
  let retried := retried + 1
  let offset := retried.toNat % (numReplication + 1)
  (retried,
    -- the limit is converted to `unsigned short`
    if retried ≤ UInt16.ofNat (numReplication + 1) * cfg.getRetryNum - 1 then
      if offset = 0 then .retryAfter offset else .call offset
    else .report .error)

def resGet (cfg : Config) (retried : UInt16) : Option Reply → UInt16 × Then
  | some (.raw rawVal) =>
    (retried, .report <|
      if h : valueMetaSize ≤ rawVal.length then .value ⟨rawVal, h⟩ else .error)
  | some (.response .null) => (retried, .report .absent)
  | some (.response (.error _)) | none => getError cfg retried
  -- `as<DBValue>` throws a type error
  | some (.response (.bool _)) | some (.response (.clocktime _)) | some (.status _ _) =>
    (retried, .report .error)

def resGetIfModified (cfg : Config) (cached : DBValue) (retried : UInt16) :
    Option Reply → UInt16 × Then
  | some (.response (.bool true)) => (retried, .report (.value cached))
  | res => resGet cfg retried res

/-- The callback of `Set`, for a reply of any type. -/
def resSetReply (cfg : Config) (retried : UInt16) (res : Option Reply) : UInt16 × Then :=
  let go (r : Option Response) : UInt16 × Then :=
    let n := resSet cfg.setRetryNum retried r
    (n.1, match n.2 with
      | .retry => .retryAfter 0
      | .report r => .report (.set r))
  match res with
  | some (.response r) => go (some r)
  | none => go none
  -- `as<ClockTime>` throws a type error
  | some (.raw _) | some (.status _ _) => (retried, .report (.set .error))

def resDelete (cfg : Config) (retried : UInt16) : Option Reply → UInt16 × Then
  | some (.response (.bool b)) => (retried, .report (.deleted b))
  -- `as<bool>` throws a type error
  | some (.response (.clocktime _)) | some (.raw _) | some (.status _ _) =>
    (retried, .report .error)
  | some (.response .null) | some (.response (.error _)) | none =>
    (retried + 1,
      if retried + 1 ≤ cfg.deleteRetryNum then .retryAfter 0 else .report .error)

/-! ## The request -/

inductive Phase
  | submitted
  | calling
  /-- The timer of `retry_after` is set. -/
  | scheduled (offset : ℕ)
  | over
  deriving DecidableEq, Repr

structure Pending where
  query : Query
  whs : HashSpace
  rhs : HashSpace
  phase : Phase
  /-- `m_limit` of the retry object. -/
  retried : UInt16
  /-- What the user's callback was called with. -/
  called : List Result

namespace Pending

/-- A gateway that has not heard of any hash space yet, and a request to be made there. -/
def init (query : Query) : Pending := ⟨query, .init, .init, .submitted, 0, []⟩

inductive Act
  /-- `HashSpacePush`, or the reply of `HashSpaceRequest`. -/
  | hashSpacePush (wseed rseed : Seed)
  | submit
  /-- The callback of the call. -/
  | outcome (res : Option Reply)
  /-- The timer fires. -/
  | fire

/-- `update_whs` and `update_rhs`. -/
def update (hash : Bytes → UInt64) (hs : HashSpace) (seed : Seed) : HashSpace :=
  if hs.empty || (hs.clocktime ≤ seed.clocktime && !seed.empty) then .ofSeed hash seed else hs

/-- The hash space the request is sent by, `HS_READ` or `HS_WRITE`. -/
def hs (s : Pending) : HashSpace :=
  match s.query with
  | .get | .getIfModified _ => s.rhs
  | .set | .delete => s.whs

def report (s : Pending) (r : Result) : Pending :=
  { s with phase := .over, called := s.called ++ [r] }

/-- The result that the catch blocks report. -/
def caught (s : Pending) : Result :=
  match s.query with
  | .set => .set .error
  | _ => .error

def onReply (cfg : Config) (s : Pending) (res : Option Reply) : UInt16 × Then :=
  match s.query with
  | .get => resGet cfg s.retried res
  | .getIfModified cached => resGetIfModified cfg cached s.retried res
  | .set => resSetReply cfg s.retried res
  | .delete => resDelete cfg s.retried res

/-- `retry->call(server_for(..))`, where an exception is answered. -/
def call (h : UInt64) (offset : ℕ) (s : Pending) : Pending :=
  match serverFor s.hs h offset with
  | .error _ => s.report s.caught
  | .ok _ => { s with phase := .calling }

/-- One step of a request for a key of hash `h`. -/
def step (hash : Bytes → UInt64) (cfg : Config) (h : UInt64) (s : Pending) : Act → Option Pending
  | .hashSpacePush wseed rseed =>
    some { s with whs := update hash s.whs wseed, rhs := update hash s.rhs rseed }
  | .submit => if s.phase = .submitted then some (s.call h 0) else none
  | .outcome res =>
    if s.phase = .calling then
      let r := s.onReply cfg res
      let s := { s with retried := r.1 }
      some <| match r.2 with
        | .report x => s.report x
        | .call offset => s.call h offset
        | .retryAfter offset => { s with phase := .scheduled offset }
    else none
  | .fire =>
    match s.phase with
    | .scheduled offset =>
      match serverFor s.hs h offset with
      -- the exception is dropped, and the request is forgotten
      | .error _ => some { s with phase := .over }
      | .ok _ => some { s with phase := .calling }
    | _ => none

end Pending

end Kumofs.Gateway
