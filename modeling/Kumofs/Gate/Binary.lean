import Kumofs.Gate.Interface
import Kumofs.Lib.Run

/-!
# The memcache binary gate

`gate/memcache_binary.cc`. The responses of a connection go through a queue: an entry is pushed when
its request is read, and filled when the gateway has answered it; filled entries are written from
the front. A quiet request that finds nothing is filled with no bytes.
-/

namespace Kumofs.Gate.Binary

/-! ## The queue -/

/-- `element_t`: the entry is null once it is filled. -/
structure Element (ε : Type) where
  e : Option ε
  vec : List Bytes
  deriving DecidableEq

def Element.isFilled {ε : Type} (x : Element ε) : Bool := x.e.isNone

/-- `response_queue`. -/
structure ResponseQueue (ε : Type) where
  queue : List (Element ε)
  /-- The vectors given to `writev`, one list a call. -/
  output : List (List Bytes)

namespace ResponseQueue

variable {ε : Type} [DecidableEq ε]

def init : ResponseQueue ε := ⟨[], []⟩

def pushEntry (q : ResponseQueue ε) (e : ε) : ResponseQueue ε :=
  { q with queue := q.queue ++ [⟨some e, []⟩] }

/-- The loop of `reached_try_send`: what is left of the queue, and what was written. -/
def drain : List (Element ε) → List (Element ε) × List (List Bytes)
  | [] => ([], [])
  | x :: xs =>
    if !x.isFilled then (x :: xs, [])
    else
      let r := drain xs
      (r.1, if x.vec.length > 0 then x.vec :: r.2 else r.2)

def reachedTrySend (q : ResponseQueue ε) (e : ε) (vec : List Bytes) : ResponseQueue ε :=
  match q.queue.findIdx? (fun x => x.e == some e) with
  -- invalidated
  | none => q
  | some i =>
    let r := drain (q.queue.set i ⟨none, vec⟩)
    ⟨r.1, q.output ++ r.2⟩

end ResponseQueue

/-! ## The requests and responses of a connection -/

section Order

variable {ε : Type} [DecidableEq ε]

/-- A queue, the entries that were pushed, in order, and those that were reached, each with its
response. -/
structure Exchange (ε : Type) where
  queue : ResponseQueue ε
  requests : List ε
  responses : List (ε × List Bytes)

inductive Call (ε : Type)
  | pushEntry (e : ε)
  | reachedTrySend (e : ε) (vec : List Bytes)

namespace Exchange

def init : Exchange ε := ⟨.init, [], []⟩

/-- The response of an entry, if it has been reached. -/
def response (x : Exchange ε) (e : ε) : Option (List Bytes) := x.responses.lookup e

/-- An entry is pushed once, and reached at most once after that. -/
def step (x : Exchange ε) : Call ε → Option (Exchange ε)
  | .pushEntry e =>
    if e ∈ x.requests then none
    else some { x with queue := x.queue.pushEntry e, requests := x.requests ++ [e] }
  | .reachedTrySend e vec =>
    if e ∈ x.requests ∧ x.response e = none then
      some { x with
        queue := x.queue.reachedTrySend e vec
        responses := (e, vec) :: x.responses }
    else none

/-- The responses in the order of the requests, up to the first that there is not yet. -/
def completed (x : Exchange ε) : List (List Bytes) :=
  ((x.requests.map x.response).takeWhile (·.isSome)).filterMap id

end Exchange

end Order

/-! ## The responses -/

/-- `memproto_header`, as far as the handlers read it. -/
structure Header where
  opcode : UInt8
  opaqueId : UInt32
  cas : UInt64
  deriving DecidableEq, Repr

/-- `memproto_response_status`, those a gate sends. -/
inductive Status
  | noError
  | keyNotFound
  | keyExists
  | invalidArguments
  | outOfMemory
  deriving DecidableEq, Repr

def Status.code : Status → UInt8
  | .noError => 0x00
  | .keyNotFound => 0x01
  | .keyExists => 0x02
  | .invalidArguments => 0x04
  | .outOfMemory => 0x82

/-- `pack_header`. -/
def packHeader (status : UInt16) (op : UInt8) (keylen : UInt16) (vallen : UInt32)
    (extralen : UInt8) (opaqueId : UInt32) (cas : UInt64) : Bytes :=
  [0x81, op] ++ toBe16 keylen ++ [extralen, 0x00] ++ toBe16 status ++
    toBe32 (vallen + keylen.toUInt32 + extralen.toUInt32) ++ toBe32 opaqueId ++
    toBe32 (cas >>> 32).toUInt32 ++ toBe32 cas.toUInt32

/-- The vectors of `send_response_nosend`. -/
def sendResponseNosend : List Bytes := []

/-- The vectors of `send_response_nodata`. -/
def sendResponseNodata (h : Header) (status : Status) : List Bytes :=
  [packHeader status.code.toUInt16 h.opcode 0 0 0 h.opaqueId 0]

/-- The vectors of `send_response`, whose lengths are 16 bits wide. -/
def sendResponse (h : Header) (status : Status) (key : Bytes) (keylen : UInt16) (val : Bytes)
    (vallen : UInt16) (extra : Bytes) (extralen : UInt16) (cas : UInt64) : List Bytes :=
  [packHeader status.code.toUInt16 h.opcode keylen vallen.toUInt32 extralen.toUInt8 h.opaqueId cas] ++
    (if extralen > 0 then [extra.take extralen.toNat] else []) ++
    (if keylen > 0 then [key.take keylen.toNat] else []) ++
    (if vallen > 0 then [val.take vallen.toNat] else [])

/-- `entry` and what is derived from it. -/
inductive Entry
  | get (header : Header) (flagKey flagQuiet : Bool)
  | set (header : Header)
  | cas (header : Header)
  | delete (header : Header)
  | plain (header : Header)
  deriving DecidableEq

/-- What a get that finds nothing is answered. -/
def notFound (h : Header) (quiet : Bool) (status : Status) : List Bytes :=
  if quiet then sendResponseNosend else sendResponseNodata h status

def responseGetx (o : Options) (systemTime : UInt32) (h : Header) (flagKey flagQuiet : Bool)
    (res : ResGet) : List Bytes :=
  if res.error then notFound h flagQuiet .outOfMemory
  else
    match res.val with
    | none => notFound h flagQuiet .keyNotFound
    | some val =>
      -- this one is not quiet
      if o.saveExptime && decide (val.length < 4) then sendResponseNodata h .keyNotFound
      else if o.saveExptime && expired systemTime val then notFound h flagQuiet .keyNotFound
      else
        let val := if o.saveExptime then val.drop 4 else val
        let keylen := if flagKey then UInt16.ofNat res.key.length else 0
        if o.saveFlag then
          if val.length < 2 then notFound h flagQuiet .keyNotFound
          else
            sendResponse h .noError res.key keylen (val.drop 2)
              (UInt16.ofNat (val.drop 2).length) ([0, 0] ++ val.take 2) 4 res.clocktime
        else
          sendResponse h .noError res.key keylen val (UInt16.ofNat val.length) [0, 0, 0, 0] 4
            res.clocktime

def responseSet (h : Header) (res : ResSet) : List Bytes :=
  sendResponseNodata h (if res.error then .outOfMemory else .noError)

def responseCas (h : Header) (res : ResSet) : List Bytes :=
  sendResponseNodata h <|
    if res.error then .outOfMemory else if !res.casSuccess then .keyExists else .noError

def responseDelete (h : Header) (res : ResDelete) : List Bytes :=
  sendResponseNodata h <|
    if res.error then .invalidArguments else if res.deleted then .noError else .outOfMemory

/-- The callback of an entry. `none` is an answer of another type than the request. -/
def respond (o : Options) (systemTime : UInt32) : Entry → Res → Option (List Bytes)
  | .get h flagKey flagQuiet, .get res => some (responseGetx o systemTime h flagKey flagQuiet res)
  | .set h, .set res => some (responseSet h res)
  | .cas h, .set res => some (responseCas h res)
  | .delete h, .delete res => some (responseDelete h res)
  | _, _ => none

/-! ## The connection -/

/-- The requests that have a callback. -/
inductive Request
  | getx (h : Header) (key : Bytes)
  | set (h : Header) (key val : Bytes) (flags expiration : UInt32)
  | delete (h : Header) (key : Bytes) (expiration : UInt32)
  | noop (h : Header)
  | flush (h : Header) (expiration : UInt32)
  deriving DecidableEq

/-- The entry of a request, and what is asked of the gateway, or the response where nothing is.
`none` is an exception, which closes the connection. -/
def handle (o : Options) (systemTime : UInt32) : Request → Option (Entry × (Req ⊕ List Bytes))
  | .getx h key =>
    some (.get h (h.opcode == 0x0c || h.opcode == 0x0d) (h.opcode == 0x09 || h.opcode == 0x0d),
      .inl (.get key))
  | .set h key val flags expiration =>
    if h.opcode = 0x03 ∧ h.cas = 0 then none
    else if (!o.saveFlag && flags != 0) || (!o.saveExptime && expiration != 0) then none
    else
      let val := envelope o systemTime flags.toUInt16 expiration val
      if h.cas ≠ 0 then some (.cas h, .inl (.set key val (.cas h.cas)))
      else some (.set h, .inl (.set key val .set))
  | .delete h key expiration =>
    if expiration ≠ 0 then none else some (.delete h, .inl (.delete key false))
  | .noop h => some (.plain h, .inr (sendResponseNodata h .noError))
  | .flush h expiration =>
    if expiration ≠ 0 then none else some (.plain h, .inr (sendResponseNodata h .noError))

/-- A connection: the entries by number, what was asked of the gateway for them, and their
queue. -/
structure Conn where
  systemTime : UInt32
  entries : List Entry
  asked : List Req
  exchange : Exchange ℕ

inductive Event
  | request (r : Request)
  /-- The gateway answers the request of that entry. -/
  | complete (n : ℕ) (res : Res)
  | updateSystemTime (t : UInt32)

namespace Conn

def init (systemTime : UInt32) : Conn := ⟨systemTime, [], [], .init⟩

def step (o : Options) (c : Conn) : Event → Option Conn
  | .request r => do
    let (e, asks) ← handle o c.systemTime r
    let n := c.entries.length
    let x ← c.exchange.step (.pushEntry n)
    match asks with
    | .inl req =>
      some { c with entries := c.entries ++ [e], asked := c.asked ++ [req], exchange := x }
    | .inr vec => do
      let x ← x.step (.reachedTrySend n vec)
      some { c with entries := c.entries ++ [e], exchange := x }
  | .complete n res => do
    let e ← c.entries[n]?
    let vec ← respond o c.systemTime e res
    let x ← c.exchange.step (.reachedTrySend n vec)
    some { c with exchange := x }
  | .updateSystemTime t => some { c with systemTime := t }

end Conn

end Kumofs.Gate.Binary
