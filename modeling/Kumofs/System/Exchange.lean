import Kumofs.System.Managers
import Kumofs.System.Store

/-!
# A request and its responses

The requests a client or an administrator makes and what is sent back: `Get`, `GetIfModified`, `Set`
and `Delete` of `logic/server/mod_store.cc`, the commands of `logic/manager/mod_control.cc`, and
`ReplaceElection`. An exception that leaves a handler is answered with an error by `DISPATCH_CATCH`.

Only one request is followed, and the session it came over lasts until the request has ended. The
operations of the local database succeed. The server or the manager is in any state when a part of
the handler runs, and what the replicas answer, if they do, is open.
-/

namespace Kumofs

/-- What is sent for a request: a result of a write handler, a value, or what `GetNodesInfo`
tells. -/
inductive Reply
  | response (r : Server.Response)
  | raw (val : Bytes)
  | status (hsseed : Seed) (newcomers : List Address)
  deriving DecidableEq

/-! ## Reading -/

/-- `Storage::cache_is_valid`. -/
def Storage.cacheIsValid (s : Storage) (rawKey : Bytes) (cacheClocktime : ClockTime) : Bool :=
  (s.db.lookup rawKey).any fun rawVal =>
    valueClocktimeSize ≤ rawVal.length && clocktimeOf rawVal ≤ cacheClocktime

namespace Server

/-- The end of `Get` and of `GetIfModified`. -/
def readReply (key : DBKey) (st : State) : List Reply :=
  match st.storage.get key.raw with
  | some rawVal => [.raw rawVal]
  | none => [.response .null]

def onGet (self : Address) (key : DBKey) (st : State) : List Reply :=
  match checkReplicatorAssign self st.rhs key.hash with
  | .error e => [.response (.error e)]
  | .ok () => readReply key st

def onGetIfModified (self : Address) (key : DBKey) (ifTime : ClockTime) (st : State) : List Reply :=
  match checkReplicatorAssign self st.rhs key.hash with
  | .error e => [.response (.error e)]
  | .ok () =>
    if st.storage.cacheIsValid key.raw ifTime then [.response (.bool true)] else readReply key st

end Server

/-! ## The manager's commands -/

inductive Control
  | getNodesInfo
  | attachNewServers (replace : Bool)
  | detachFaultServers (replace : Bool)
  | createBackup (suffix : String)
  | setAutoReplace (enable : Bool)
  | startReplace (full : Bool)
  deriving DecidableEq, Repr

namespace Manager

variable (hash : Bytes → UInt64)

/-- `mod_control_t`, with the responses in the order they are sent. The calls of `CreateBackup` to
the servers are left out. -/
def control (m : Manager) : Control → (Manager × List Out) × List Reply
  | .getNodesInfo =>
    ((m, []), [.status m.whs.seed ((m.newServers.filter (!·.expired)).map (·.addr))])
  | .attachNewServers replace => (m.controlAttach hash replace, [.response .null])
  | .detachFaultServers replace => (m.controlDetach hash replace, [.response .null])
  | .createBackup suffix =>
    if suffix.isEmpty then ((m, []), [.response (.error "empty suffix")])
    else ((m, []), [.response .null])
  | .setAutoReplace enable =>
    -- the branches fall through to the last line of the handler
    (m.setAutoReplace hash enable,
      (if m.autoReplace && !enable then [.response (.bool false)]
        else if !m.autoReplace && enable then [.response (.bool true)]
        else []) ++ [.response .null])
  | .startReplace full => (m.startReplace full, [.response .null])

/-- `ReplaceElection` with what it sends back. -/
def replyReplaceElection (m : Manager) (fromPartner : Bool) (hsseed : Seed) (adjustClock : UInt32) :
    (Manager × List Out) × List Reply :=
  if fromPartner then
    let r := m.onReplaceElection hash hsseed adjustClock
    (r.1, r.2.toList.map fun res => .response (res.elim .null .bool))
  else ((m, []), [.response (.error "unknown partner node")])

end Manager

/-! ## A request from its arrival on -/

inductive Request
  | get (key : DBKey)
  | getIfModified (key : DBKey) (ifTime : ClockTime)
  /-- `Set` with one of its three operations, and `Delete`. -/
  | write (op : Server.Op)
  /-- `Set` with another operation. -/
  | setUnknown
  | control (c : Control)
  | replaceElection (fromPartner : Bool) (hsseed : Seed) (adjustClock : UInt32)

/-- The request has arrived, its write handler has begun, or its handler has ended at once. -/
inductive Exchange
  | arrived (r : Request)
  | writing (h : Server.Handler)
  | ended (sent : List Reply)

namespace Exchange

open Server

inductive Act
  /-- A handler goes on at a server in that state. -/
  | serve (st : State)
  /-- A handler runs at a manager in that state. -/
  | manage (m : Manager)
  /-- The callback of call `i`, with an answer or an error. -/
  | reply (i : ℕ) (res : Except String Bool) (active : Bool)

/-- The callback of a call that waits. -/
def callback (limit : UInt16) (h : Handler) (i : ℕ) (res : Except String Bool) (active : Bool) :
    Option Handler :=
  (h.calls[i]?.filter (·.status = .waiting)).map fun c => (h.onReply limit i c res active).1

def step (hash : Bytes → UInt64) (self : Address) (cfg : StoreNet.Config) : Exchange → Act →
    Option Exchange
  | .arrived (.get key), .serve st => some (.ended (onGet self key st))
  | .arrived (.getIfModified key ifTime), .serve st =>
    some (.ended (onGetIfModified self key ifTime st))
  | .arrived (.write op), .serve st => some (.writing ((Handler.init self op).step cfg.key st).2.1)
  | .arrived .setUnknown, .serve _ => some (.ended [.response (.error "type error")])
  | .arrived (.control c), .manage m => some (.ended (m.control hash c).2)
  | .arrived (.replaceElection fromPartner hsseed adjustClock), .manage m =>
    some (.ended (m.replyReplaceElection hash fromPartner hsseed adjustClock).2)
  | .writing h, .serve st => some (.writing (h.step cfg.key st).2.1)
  | .writing h, .reply i res active =>
    (callback (cfg.retryNum h.op) h i res active).map .writing
  | _, _ => none

/-- What has been sent for the request. -/
def responses : Exchange → List Reply
  | .arrived _ => []
  | .writing h => h.responses.map .response
  | .ended sent => sent

/-- The handler has ended, and all calls it made have completed. -/
def Complete : Exchange → Prop
  | .arrived _ => False
  | .writing h => (h.pc = .done ∨ h.pc = .refused) ∧
    ∀ c ∈ h.calls, c.status = .answered ∨ c.status = .failed
  | .ended _ => True

instance : DecidablePred Complete
  | .arrived _ => inferInstanceAs (Decidable False)
  | .writing _ => inferInstanceAs (Decidable (_ ∧ ∀ c ∈ _, _))
  | .ended _ => inferInstanceAs (Decidable True)

end Exchange

end Kumofs
