import Kumofs.Rpc.Cluster

/-!
# A connection to a node

The two ends of a connection that is made to a node, as far as the init messages go. The node that
accepts has a `cluster_transport` of `rpc/cluster.cc`; whoever connects has one too or, if it is a
gateway or a tool, the `transport` of `rpc/transport.h`, which sends no init message. Calls and
responses go by number. They are sent by the session that the transport is bound to, by any thread
and at any time, and come to the other end in the order they were sent.

A message that the receiver cannot make sense of is an exception, which closes its end; an init
message to a transport that is through with them is taken for one.
-/

namespace Kumofs.Rpc

inductive Message
  | init (addr : Address) (role : UInt8)
  /-- A request or a response. -/
  | call (k : ℕ)
  deriving DecidableEq, Repr

def Message.number : Message → Option ℕ
  | .init _ _ => none
  | .call k => some k

/-- The calls of a stream. -/
def calls (l : List Message) : List ℕ := l.filterMap Message.number

/-- A transport. -/
structure End where
  /-- `m_process_state`; a `transport` dispatches as in `subsys_state`. -/
  state : ProcessState
  /-- `m_session` is set. -/
  session : Bool
  /-- `bind_transport` was called. -/
  bound : Bool
  /-- What `init_message` was told, for `set_role`. -/
  told : Option (Address × UInt8)
  /-- What its session has sent. -/
  sent : List ℕ
  /-- What was dispatched. -/
  received : List ℕ
  /-- An exception has closed it. -/
  failed : Bool
  deriving DecidableEq, Repr

namespace End

variable (e : End)

/-- A new transport. -/
def new (state : ProcessState) (session : Bool) : End :=
  ⟨state, session, false, none, [], [], false⟩

def fail : End := { e with state := .closed, failed := true }

def dispatch (k : ℕ) : End := { e with received := e.received ++ [k] }

/-- `bind_transport`, of the constructor or of `rebind`. -/
def bind : End := { e with session := true, bound := true }

/-- `init_message`, up to `rebind` or to `set_role`, and the init message that is sent by it. -/
def initMessage (self : Message) : Message → End × List Message
  | .init addr role =>
    let greeted := { e with state := .initializing, told := some (addr, role) }
    if e.session then (greeted, [])
    else if addr.connectable then (greeted, [self])
    else (e.fail, [])
  | .call k => if e.session then (e.fail, []) else ({ e.bind with state := .subsys }.dispatch k, [])

/-- The process state is run on a message. -/
def process (self : Message) (msg : Message) : Option (End × List Message) :=
  match e.state with
  | .initial => some (e.initMessage self msg)
  | .subsys | .cluster =>
    match msg with
    | .call k => some (e.dispatch k, [])
    | .init _ _ => some (e.fail, [])
  | .initializing | .closed => none

end End

/-- Who connects. -/
inductive Connector
  | node (addr : Address) (role : UInt8)
  | client
  deriving DecidableEq, Repr

/-- The ends, with the streams to them. -/
structure Link where
  connector : End
  acceptor : End
  toConnector : List Message
  toAcceptor : List Message
  deriving DecidableEq, Repr

namespace Link

/-- The constructors, up to `bind_transport`. -/
def start : Connector → Link
  | .node addr role => ⟨.new .initial true, .new .initial false, [], [.init addr role]⟩
  | .client => ⟨.new .subsys true, .new .initial false, [], []⟩

inductive Act
  | bind
  /-- The session sends. -/
  | send (k : ℕ)
  | receive
  /-- `init_message` goes on from `set_role` on. -/
  | setRole
  | close
  deriving DecidableEq, Repr

/-- What an end does, and what is left of the stream to it and added to the one from it. The handler
is called once the constructor is through. -/
def act (self : Message) (e : End) (incoming : List Message) :
    Act → Option (End × List Message × List Message)
  | .bind =>
    if (e.session ∨ e.state = .initializing) ∧ e.bound = false ∧ e.state ≠ .closed then
      some (e.bind, incoming, [])
    else none
  | .send k =>
    if e.bound = true ∧ e.state ≠ .closed then
      some ({ e with sent := e.sent ++ [k] }, incoming, [.call k])
    else none
  | .receive =>
    match incoming with
    | [] => none
    | msg :: rest =>
      if e.session = true ∧ e.bound = false then none
      else (e.process self msg).map fun r => (r.1, rest, r.2)
  | .setRole =>
    if e.state = .initializing ∧ e.bound = true then
      some ({ e with state := .cluster }, incoming, [])
    else none
  | .close =>
    if e.state = .closed then none else some ({ e with state := .closed }, incoming, [])

/-- An act of the end that has accepted, where `true`, or of the other one; `self` is what a node
that has accepted sends. -/
def step (self : Message) (s : Link) : Bool × Act → Option Link
  | (true, a) => (act self s.acceptor s.toAcceptor a).map fun (e, incoming, sent) =>
    { s with acceptor := e, toAcceptor := incoming, toConnector := s.toConnector ++ sent }
  | (false, a) => (act self s.connector s.toConnector a).map fun (e, incoming, sent) =>
    { s with connector := e, toConnector := incoming, toAcceptor := s.toAcceptor ++ sent }

end Link

end Kumofs.Rpc
