import Kumofs.Server.Assign
import Kumofs.Storage

/-!
# Writing a key

The handlers of `Set`, `Delete`, `ReplicateSet` and `ReplicateDelete` and the callbacks of the
replications, `logic/server/mod_store.cc`. A `Set` or `Delete` runs in steps between which others
may run: it computes its replicas, takes a clocktime, does the database operation of a `CAS` or a
`Delete`, sends one call after the other, and does the database operation of a plain `Set` last.
What a handler keeps for its callbacks is part of it.
-/

namespace Kumofs.Server

/-- What the store handlers use of a server. -/
structure State where
  whs : HashSpace
  rhs : HashSpace
  storage : Storage
  clock : ClockLogic

/-- `Set` with `OP_SET`, `OP_SET_ASYNC` and `OP_CAS`, and `Delete` with its async flag. -/
inductive Op
  | set (val : DBValue) (async : Bool)
  | cas (val : DBValue)
  | delete (async : Bool)
  deriving DecidableEq

/-- `OP_SET_ASYNC`, and `flags.is_async()`. -/
def Op.async : Op → Bool
  | .set _ async => async
  | .cas _ => false
  | .delete async => async

inductive Response
  | clocktime (ct : ClockTime)
  | bool (b : Bool)
  | null
  | error (e : String)
  deriving DecidableEq, Repr

/-! ## The replicas -/

/-- `ReplicateSet` and `ReplicateDelete` but for their key. -/
inductive Replicate
  | set (adjustClock : UInt32) (byRhs : Bool) (val : DBValue)
  | delete (adjustClock : UInt32) (byRhs : Bool) (ct : ClockTime)
  deriving DecidableEq

/-- `check_replicator_assign` as both handlers call it. -/
def checkReplicate (self : Address) (key : DBKey) (byRhs : Bool) (s : State) :
    Except String Unit :=
  checkReplicatorAssign self (if byRhs then s.rhs else s.whs) key.hash

/-- The handlers of `ReplicateSet` and `ReplicateDelete`. -/
def replicate (self : Address) (key : DBKey) (s : State) : Replicate → State × Except String Bool
  | .set adjustClock byRhs val =>
    match checkReplicate self key byRhs s with
    | .error e => (s, .error e)
    | .ok () =>
      let r := s.storage.update key.raw val.raw
      ({ s with clock := s.clock.clockUpdate adjustClock, storage := r.1 }, .ok r.2)
  | .delete adjustClock byRhs ct =>
    match checkReplicate self key byRhs s with
    | .error e => (s, .error e)
    | .ok () =>
      let r := s.storage.remove key.raw ct
      ({ s with clock := s.clock.clockUpdate adjustClock, storage := r.1 }, .ok r.2)

/-! ## The coordinator -/

inductive CallStatus
  | unsent | waiting | answered | failed
  deriving DecidableEq, Repr

/-- A replication to one node. -/
structure Call where
  dest : Address
  byRhs : Bool
  status : CallStatus
  /-- How often it was sent. Only the last sending is waited for. -/
  attempt : ℕ
  deriving DecidableEq, Repr

/-- Where a handler is. In `send` it has calls to send, and a plain `Set` its write. -/
inductive Pc
  | calc | stamp | apply | send | done | refused
  deriving DecidableEq, Repr

structure Handler where
  self : Address
  op : Op
  pc : Pc
  reps : Replicators
  ct : ClockTime
  deleted : Bool
  /-- `*pcr`. -/
  copyRequired : UInt32
  calls : List Call
  /-- `m_limit` of the retry objects of the rhs calls and of the whs calls. -/
  rretry : UInt16
  wretry : UInt16
  /-- The responses sent, the last first. -/
  responses : List Response
  /-- Its database operation has put its value. No code reads it. -/
  wrote : Bool
  deriving DecidableEq

namespace Handler

def init (self : Address) (op : Op) : Handler :=
  ⟨self, op, .calc, ⟨[], [], []⟩, .zero, false, 0, [], 0, 0, [], false⟩

def respond (h : Handler) (r : Response) : Handler := { h with responses := r :: h.responses }

/-- The calls, those of rhs first, and `*pcr`. -/
def prepare (h : Handler) : Handler :=
  { h with
    pc := .send
    calls := h.reps.rrepto.map (Call.mk · true .unsent 0) ++
      h.reps.wrepto.map (Call.mk · false .unsent 0)
    copyRequired :=
      if h.op.async then 0
      else UInt32.ofNat (h.reps.wrepto.length + h.reps.rrepto.length) }

/-- The raw value that the operation leaves in the database. -/
def rawVal (h : Handler) : Bytes :=
  match h.op with
  | .set val _ => (val.setClocktime h.ct).raw
  | .cas val => (val.setClocktime h.ct).raw
  | .delete _ => Storage.clocktimeTo h.ct

/-- What is sent for a call. -/
def message (h : Handler) (byRhs : Bool) : Replicate :=
  match h.op with
  | .set val _ => .set h.ct.clock byRhs (val.setClocktime h.ct)
  | .cas val => .set h.ct.clock byRhs (val.setClocktime h.ct)
  | .delete _ => .delete h.ct.clock byRhs h.ct

/-- The response of a `Set` or `CAS` without a reply to wait for. -/
def respondIfAlone (h : Handler) (r : Response) : Handler :=
  if h.calls = [] ∨ h.op.async = true then h.respond r else h

/-- The database operation of `OP_CAS` and of `Delete`, and what follows up to the first call. -/
def applyLocal (key : DBKey) (s : State) (h : Handler) : State × Handler :=
  match h.op with
  | .set _ _ => (s, h)
  | .cas val =>
    let r := s.storage.cas key.raw h.rawVal val.clocktime
    let s := { s with storage := r.1 }
    if r.2 then (s, { h with wrote := true }.prepare)
    else (s, { h.respond (.bool false) with pc := .done })
  | .delete _ =>
    let r := s.storage.remove key.raw h.ct
    let s := { s with storage := r.1 }
    if r.2 then
      (s, ({ h with deleted := true, wrote := true }.prepare).respondIfAlone (.bool true))
    else if h.reps.rrepto = [] then (s, { h.respond (.bool false) with pc := .done })
    -- the key is not stored here, and it need not be on the nodes of whs
    else (s, ({ h with reps := { h.reps with wrepto := [] } }.prepare).respondIfAlone (.bool true))

/-- A plain `Set` writes when its calls are sent; the other operations are done then. -/
def finish (key : DBKey) (s : State) (h : Handler) : State × Handler :=
  match h.op with
  | .set _ _ =>
    ({ s with storage := s.storage.set key.raw h.rawVal },
      { h.respondIfAlone (.clocktime h.ct) with pc := .done, wrote := true })
  | .cas _ => (s, { h.respondIfAlone (.clocktime h.ct) with pc := .done })
  | .delete _ => (s, { h with pc := .done })

/-- The next step of a handler, and the call it sends. -/
def step (key : DBKey) (s : State) (h : Handler) : State × Handler × Option ℕ :=
  match h.pc with
  | .calc =>
    match calcReplicators h.self s.whs s.rhs key.hash with
    | .error e => (s, { h.respond (.error e) with pc := .refused }, none)
    | .ok reps => (s, { h with reps := reps, pc := .stamp }, none)
  | .stamp =>
    let r := s.clock.clockIncrClocktime
    let h := { h with ct := r.1 }
    ({ s with clock := r.2 },
      match h.op with
      | .set _ _ => h.prepare
      | _ => { h with pc := .apply }, none)
  | .apply =>
    let r := applyLocal key s h
    (r.1, r.2, none)
  | .send =>
    match h.calls.findIdx? (·.status = .unsent) with
    | none =>
      let r := finish key s h
      (r.1, r.2, none)
    | some i =>
      (s, { h with calls := h.calls.modify i fun c => { c with status := .waiting, attempt := 1 } },
        some i)
  | .done | .refused => (s, h, none)

/-! ## The callbacks -/

/-- `__sync_sub_and_fetch(copy_required, 1)`, and the response when nothing is left. -/
def countDown (h : Handler) (r : Response) : Handler :=
  let h := { h with copyRequired := h.copyRequired - 1 }
  if h.copyRequired = 0 then h.respond r else h

/-- What the callback of the last reply answers. -/
def lastResponse (h : Handler) (c : Call) (res : Except String Bool) : Response :=
  match h.op with
  | .set _ _ => .clocktime h.ct
  | .cas _ => .clocktime h.ct
  | .delete _ => .bool (h.deleted || (c.byRhs && res matches .ok true))

/-- The retry object of a call counts up. -/
def retryIncr (h : Handler) (byRhs : Bool) (limit : UInt16) : Handler × Bool :=
  if byRhs then ({ h with rretry := h.rretry + 1 }, h.rretry + 1 ≤ limit)
  else ({ h with wretry := h.wretry + 1 }, h.wretry + 1 ≤ limit)

/-- The callback of call `i`; `active` says whether the session to the replica is. The call that is
to be sent again comes with the result. -/
def onReply (limit : UInt16) (h : Handler) (i : ℕ) (c : Call) (res : Except String Bool)
    (active : Bool) : Handler × Bool :=
  match res with
  | .ok _ =>
    ({ h with calls := h.calls.set i { c with status := .answered } }.countDown
      (h.lastResponse c res), false)
  | .error _ =>
    let r := if active then h.retryIncr c.byRhs limit else (h, false)
    if r.2 then
      ({ r.1 with calls := h.calls.set i { c with attempt := c.attempt + 1 } }, true)
    else
      let h := { r.1 with calls := h.calls.set i { c with status := .failed } }
      if c.byRhs then (h.countDown (h.lastResponse c res), false) else (h.respond .null, false)

end Handler

end Kumofs.Server
