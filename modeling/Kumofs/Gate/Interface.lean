import Kumofs.Storage

/-!
# What a gate asks of the gateway

`gate/interface.h`, and what the memcache gates put before the data of a value: the flags and,
ahead of them, the time at which it expires, each where the gate is told to save it.
-/

namespace Kumofs.Gate

/-- `res_get`: the value is null where the key is not there. -/
structure ResGet where
  error : Bool
  key : Bytes
  val : Option Bytes
  clocktime : UInt64
  deriving DecidableEq, Repr

/-- `res_set`, but for what it repeats of the request. -/
structure ResSet where
  error : Bool
  casSuccess : Bool
  deriving DecidableEq, Repr

/-- `res_delete`, but for what it repeats of the request. -/
structure ResDelete where
  error : Bool
  deleted : Bool
  deriving DecidableEq, Repr

/-- `set_op_t`. Only `OP_CAS` has a clocktime. -/
inductive SetOp
  | set
  | setAsync
  | cas (clocktime : UInt64)
  | append
  | prepend
  deriving DecidableEq, Repr

/-- `req_get`, `req_set` and `req_delete`. -/
inductive Req
  | get (key : Bytes)
  | set (key val : Bytes) (operation : SetOp)
  | delete (key : Bytes) (async : Bool)
  deriving DecidableEq, Repr

/-- What a request's callback is called with. -/
inductive Res
  | get (res : ResGet)
  | set (res : ResSet)
  | delete (res : ResDelete)
  deriving DecidableEq, Repr

/-- `g_save_flag` and `g_save_exptime`. -/
structure Options where
  saveFlag : Bool
  saveExptime : Bool
  deriving DecidableEq, Repr

/-- `htons`, as it lies in memory. -/
def toBe16 (x : UInt16) : Bytes := [x.toNat / 256, x.toNat].map UInt8.ofNat

/-- `htonl`, as it lies in memory. -/
def toBe32 (x : UInt32) : Bytes :=
  [x.toNat / 256 ^ 3, x.toNat / 256 ^ 2, x.toNat / 256, x.toNat].map UInt8.ofNat

/-- `RELATIVE_MAX`: 30 days. -/
def relativeMax : UInt32 := 60 * 60 * 24 * 30

/-- `exptime_to_system`. -/
def exptimeToSystem (systemTime exptime : UInt32) : UInt32 :=
  if exptime = 0 then 0
  else if exptime ≤ relativeMax then exptime + systemTime
  else exptime

/-- The value that is set: the flags go right before the data, the time before the flags. -/
def envelope (o : Options) (systemTime : UInt32) (flags : UInt16) (exptime : UInt32)
    (data : Bytes) : Bytes :=
  let data := if o.saveFlag then toBe16 flags ++ data else data
  if o.saveExptime then toBe32 (exptimeToSystem systemTime exptime) ++ data else data

/-- Bytes that are written to memory right before a place, if there is room. -/
def writeBefore (mem : Bytes) (p : ℕ) (bytes : Bytes) : Option Bytes :=
  if bytes.length ≤ p ∧ p ≤ mem.length then
    some (mem.take (p - bytes.length) ++ (bytes ++ mem.drop p))
  else none

/-- `exptime != 0 && exptime < g_system_time`, for the time at the head of a value. -/
def expired (systemTime : UInt32) (val : Bytes) : Bool :=
  let exptime := UInt32.ofNat (ofBe (val.take 4))
  exptime != 0 && decide (exptime < systemTime)

end Kumofs.Gate
