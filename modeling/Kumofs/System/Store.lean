import Kumofs.Lib.Run
import Kumofs.Server.Store

/-!
# The writers of one key

Any number of servers and of `Set` and `Delete` handlers of one key on them, with the calls and
replies between them in flight. A call or a reply is handled at any time and in any order, or
never; a call fails, by a lost session or a timeout, whenever it waits for its reply, and what was
sent for it may be handled all the same. A server's clock and hash spaces change by what is not
modelled here, and deletes of other keys collect garbage.
-/

namespace Kumofs

/-- The sending `attempt` of call `call` of handler `handler`. -/
structure Sending where
  handler : ℕ
  call : ℕ
  attempt : ℕ
  deriving DecidableEq, Repr

structure StoreNet where
  srv : Address → Server.State
  handlers : List Server.Handler
  packets : List Sending
  replies : List (Sending × Except String Bool)

namespace StoreNet

/-- The key, and `cfg_replicate_set_retry_num` and `cfg_replicate_delete_retry_num`. -/
structure Config where
  key : DBKey
  setRetryNum : UInt16
  deleteRetryNum : UInt16

def Config.retryNum (cfg : Config) : Server.Op → UInt16
  | .delete _ => cfg.deleteRetryNum
  | _ => cfg.setRetryNum

inductive Act
  | request (a : Address) (op : Server.Op)
  | step (i : ℕ)
  | deliver (k : ℕ)
  | reply (k : ℕ) (active : Bool)
  /-- Call `c` of handler `i` fails without an answer. -/
  | fail (i c : ℕ) (active : Bool)
  | clockUpdate (a : Address) (c : UInt32)
  | time (a : Address) (t : UInt32)
  | hashSpaces (a : Address) (whs rhs : HashSpace)
  /-- `Storage::remove` of another key. -/
  | removeOther (a : Address) (rawKey : Bytes) (ct : ClockTime)

def init (srv : Address → Server.State) : StoreNet := ⟨srv, [], [], []⟩

def setSrv (s : StoreNet) (a : Address) (x : Server.State) : StoreNet :=
  { s with srv := Function.update s.srv a x }

def setHandler (s : StoreNet) (i : ℕ) (h : Server.Handler) : StoreNet :=
  { s with handlers := s.handlers.set i h }

/-- Call `c` of handler `i`, if that sending is the one waited for. -/
def waitingCall (s : StoreNet) (i c attempt : ℕ) : Option (Server.Handler × Server.Call) :=
  s.handlers[i]?.bind fun h =>
    (h.calls[c]?.filter fun call => call.status = .waiting ∧ call.attempt = attempt).map (h, ·)

/-- The callback of a call, and the sending that follows it. -/
def callback (cfg : Config) (s : StoreNet) (i c : ℕ) (h : Server.Handler) (call : Server.Call)
    (res : Except String Bool) (active : Bool) : StoreNet :=
  let r := h.onReply (cfg.retryNum h.op) c call res active
  let s := s.setHandler i r.1
  if r.2 then { s with packets := s.packets ++ [⟨i, c, call.attempt + 1⟩] } else s

def step (cfg : Config) (s : StoreNet) : Act → Option StoreNet
  | .request a op => some { s with handlers := s.handlers ++ [.init a op] }
  | .step i => s.handlers[i]?.map fun h =>
    let r := h.step cfg.key (s.srv h.self)
    let s := (s.setSrv h.self r.1).setHandler i r.2.1
    { s with packets := s.packets ++ (r.2.2.map fun c => Sending.mk i c 1).toList }
  | .deliver k => s.packets[k]?.bind fun p =>
    s.handlers[p.handler]?.bind fun h =>
      h.calls[p.call]?.map fun call =>
        let r := Server.replicate call.dest cfg.key (s.srv call.dest) (h.message call.byRhs)
        { s.setSrv call.dest r.1 with
          packets := s.packets.eraseIdx k
          replies := s.replies ++ [(p, r.2)] }
  | .reply k active => s.replies[k]?.map fun r =>
    let s := { s with replies := s.replies.eraseIdx k }
    match s.waitingCall r.1.handler r.1.call r.1.attempt with
    | none => s
    | some (h, call) => s.callback cfg r.1.handler r.1.call h call r.2 active
  | .fail i c active => s.handlers[i]?.bind fun h =>
    (h.calls[c]?.filter (·.status = .waiting)).map fun call =>
      s.callback cfg i c h call (.error "timeout") active
  | .clockUpdate a c =>
    some (s.setSrv a { s.srv a with clock := (s.srv a).clock.clockUpdate c })
  | .time a t => some (s.setSrv a { s.srv a with clock := (s.srv a).clock.clockUpdateTime t })
  | .hashSpaces a whs rhs => some (s.setSrv a { s.srv a with whs := whs, rhs := rhs })
  | .removeOther a rawKey ct =>
    if rawKey = cfg.key.raw then none
    else some (s.setSrv a { s.srv a with storage := ((s.srv a).storage.remove rawKey ct).1 })

end StoreNet

end Kumofs
