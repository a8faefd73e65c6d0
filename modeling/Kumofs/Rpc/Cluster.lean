import Kumofs.Hash
import Kumofs.Lib.Run

/-!
# The nodes of a cluster

`rpc/client_tmpl.h` and `rpc/cluster.cc`: the sessions to other nodes by their addresses, how they
are connected, connected again and given up, and what a transport makes of the first message that
comes over it. The counter of the retries of a session is raised by `async_connect`, and by the
manager where a `KeepAlive` fails.

Threads are interleaved at the locks they take, where they hand something on, and between what they
read or write of a node without a lock, so that a call of `get_session` is two steps, a connection
attempt at least three, and `init_message` and `transport_lost` are three each. An address is stored
in one step. What is sent is not followed. Sessions and transports go by number; a transport is with
one thread at a time.
-/

namespace Kumofs.Rpc

/-- `node`. -/
structure Node where
  addr : Address
  /-- `m_role`; `none` is -1. -/
  role : Option UInt8
  lost : Bool
  binds : List ℕ
  connectRetriedCount : UInt16
  /-- Somebody has a `shared_ptr` to it. -/
  alive : Bool
  /-- The address it was created for. No code reads it. -/
  origin : Address
  deriving DecidableEq, Repr

/-- `node(session_manager*)`; its address is not connectable yet. -/
def Node.new (origin : Address) : Node :=
  { addr := ⟨List.replicate 6 0⟩
    role := none
    lost := false
    binds := []
    connectRetriedCount := 0
    alive := true
    origin }

/-- `m_process_state`. -/
inductive ProcessState
  /-- `NULL`. -/
  | initial
  /-- In `init_message`. -/
  | initializing
  | subsys
  | cluster
  /-- The transport is destroyed. -/
  | closed
  deriving DecidableEq, Repr

/-- `cluster_transport`; its session is a node, or not set, or in the subsystem. -/
structure Transport where
  state : ProcessState
  session : Option ℕ
  deriving DecidableEq, Repr

/-- What a session is got for. -/
inductive Use
  /-- `get_session`. -/
  | session
  /-- `get_node`. -/
  | node
  /-- `create_session`, for the `rebind` of a transport. -/
  | rebind (t : ℕ) (role : UInt8)
  deriving DecidableEq, Repr

/-- The `CONNECT` of `get_session_impl`. -/
def Use.connect : Use → Bool
  | .session | .node => true
  | .rebind _ _ => false

/-- What is under way. -/
inductive Task
  /-- `get_session_impl` after it has found nothing under the read lock. -/
  | search (addr : Address) (use : Use)
  /-- `get_session_impl` has the session. -/
  | got (addr : Address) (n : ℕ) (use : Use)
  | asyncConnect (addr : Address) (n : ℕ)
  /-- `wavy::connect`, until `connect_callback`. -/
  | connecting (addr : Address) (n : ℕ)
  /-- `async_connect` after `wavy::connect`. -/
  | increment (n : ℕ)
  /-- `transport_lost`, submitted or called. -/
  | transportLost (n : ℕ)
  /-- `transport_lost` where the session is to be tried again. -/
  | reconnect (n : ℕ)
  /-- `force_lost`; `gaveUp` where `lost_node` may come after it. -/
  | forceLost (n : ℕ) (gaveUp : Bool)
  /-- `transport_lost` after `force_lost`. -/
  | lostNode (n : ℕ)
  /-- `init_message` from `set_role` on. -/
  | setRole (addr : Address) (n t : ℕ) (role : UInt8)
  /-- `init_message` after `set_role` has succeeded. -/
  | setAddr (addr : Address) (n t : ℕ) (role : UInt8)
  /-- `new_node`, submitted. -/
  | newNode (addr : Address) (n : ℕ) (role : UInt8)
  deriving DecidableEq, Repr

/-- The session of a task. -/
def Task.node : Task → Option ℕ
  | .search _ _ => none
  | .got _ n _ | .asyncConnect _ n | .connecting _ n | .increment n | .transportLost n
  | .reconnect n | .forceLost n _ | .lostNode n | .setRole _ n _ _ | .setAddr _ n _ _
  | .newNode _ n _ => some n

structure Cluster where
  nodes : List Node
  transports : List Transport
  sessions : List (Address × ℕ)
  tasks : List Task
  /-- The calls of `new_node` and `lost_node`. -/
  newNodes : List (Address × UInt8 × ℕ)
  lostNodes : List (Address × UInt8 × ℕ)
  deriving DecidableEq

namespace Cluster

variable (limit : UInt16) (s : Cluster)

def init : Cluster := ⟨[], [], [], [], [], []⟩

/-- `s && !s->is_lost()` of a `weak_ptr` that is locked. -/
def usable (n : ℕ) : Bool := (s.nodes[n]?).any fun x => x.alive && !x.lost

def setNode (n : ℕ) (f : Node → Node) : Cluster := { s with nodes := s.nodes.modify n f }

def setTransport (t : ℕ) (f : Transport → Transport) : Cluster :=
  { s with transports := s.transports.modify t f }

/-- `m_process_state` of a transport. -/
def setState (t : ℕ) (state : ProcessState) : Cluster :=
  s.setTransport t fun x => { x with state }

def add (task : Task) : Cluster := { s with tasks := s.tasks ++ [task] }

/-- The first session of the address that can be used. -/
def lookup (addr : Address) : Option ℕ :=
  (s.sessions.find? fun p => p.1 == addr && s.usable p.2).map Prod.snd

/-- The sessions of the address that come before one that can be used are erased. -/
def sweep (addr : Address) : List (Address × ℕ) → List (Address × ℕ)
  | [] => []
  | p :: l =>
    if p.1 = addr then if s.usable p.2 then p :: l else sweep addr l
    else p :: sweep addr l

/-- `get_session_impl`, as far as the read lock goes. -/
def getSession (addr : Address) (use : Use) : Cluster :=
  match s.lookup addr with
  | some n => s.add (.got addr n use)
  | none => s.add (.search addr use)

/-- A new session, in the place of those of the address. -/
def create (addr : Address) : Cluster :=
  { s with
    nodes := s.nodes ++ [Node.new addr]
    sessions := s.sweep addr s.sessions ++ [(addr, s.nodes.length)] }

/-- `get_session_impl` under the write lock. -/
def search (addr : Address) (use : Use) : Cluster :=
  match s.lookup addr with
  | some n => { s with sessions := s.sweep addr s.sessions }.add (.got addr n use)
  | none =>
    let n := s.nodes.length
    let s := s.create addr
    (if use.connect then s.add (.asyncConnect addr n) else s).add (.got addr n use)

/-- `bind_transport`. -/
def bind (n t : ℕ) : Cluster :=
  s.setNode n fun x => { x with binds := x.binds ++ [t], connectRetriedCount := 0 }

/-- `unbind_transport`. -/
def unbind (n t : ℕ) : Cluster :=
  let s := s.setNode n fun x => { x with binds := x.binds.filter (· != t) }
  if (s.nodes[n]?).any fun x => x.binds.isEmpty then s.add (.transportLost n) else s

/-- `~cluster_transport`. -/
def close (t : ℕ) : Option ℕ → Cluster
  | some n => (s.setState t .closed).unbind n t
  | none => s.setState t .closed

/-- `rebind`. -/
def rebind (n t : ℕ) : Cluster :=
  let s := match (s.transports[t]?).bind (·.session) with
    | some m => s.unbind m t
    | none => s
  (s.setTransport t fun x => { x with session := some n }).bind n t

/-- The caller of `get_session_impl` goes on. -/
def got (addr : Address) (n : ℕ) : Use → Cluster
  | .session => s
  | .node => s.setNode n fun x => if x.addr.connectable then x else { x with addr := addr }
  | .rebind t role => (s.rebind n t).add (.setRole addr n t role)

/-- `async_connect`. -/
def asyncConnect (addr : Address) (n : ℕ) (x : Node) : Cluster :=
  if !x.lost && !x.binds.isEmpty then s else (s.add (.connecting addr n)).add (.increment n)

/-- `cluster::transport_lost`, up to what it does. -/
def transportLost (n : ℕ) (x : Node) : Cluster :=
  if limit < x.connectRetriedCount then s.add (.forceLost n true) else s.add (.reconnect n)

/-- `transport_lost` of a session that has not been tried too often. -/
def reconnect (n : ℕ) (x : Node) : Cluster :=
  if x.addr.connectable then s.add (.asyncConnect x.addr n) else s.add (.forceLost n false)

/-- `client_base::transport_lost`. -/
def forceLost (n : ℕ) (gaveUp : Bool) : Cluster :=
  let s := s.setNode n fun x => { x with lost := true }
  if gaveUp then s.add (.lostNode n) else s

/-- `is_role_set`, and `lost_node`. -/
def lostNode (n : ℕ) (x : Node) : Cluster :=
  match x.role with
  | some role => { s with lostNodes := s.lostNodes ++ [(x.addr, role, n)] }
  | none => s

/-- `set_role`; where it fails, the transport is in `cluster_state`. -/
def setRole (addr : Address) (n t : ℕ) (role : UInt8) (x : Node) : Cluster :=
  match x.role with
  | some _ => s.setState t .cluster
  | none => (s.setNode n fun x => { x with role := some role }).add (.setAddr addr n t role)

/-- The address is stored and `new_node` submitted; then the transport is in `cluster_state`. -/
def setAddr (addr : Address) (n t : ℕ) (role : UInt8) : Cluster :=
  ((s.setState t .cluster).setNode n fun x => { x with addr := addr }).add (.newNode addr n role)

/-- A task goes on that does not wait for the network. -/
def run : Task → Option Cluster
  | .search addr use => some (s.search addr use)
  | .got addr n use => some (s.got addr n use)
  | .asyncConnect addr n => s.nodes[n]?.map (s.asyncConnect addr n)
  | .increment n =>
    some (s.setNode n fun x => { x with connectRetriedCount := x.connectRetriedCount + 1 })
  | .transportLost n => s.nodes[n]?.map (s.transportLost limit n)
  | .reconnect n => s.nodes[n]?.map (s.reconnect n)
  | .forceLost n gaveUp => s.nodes[n]?.map fun _ => s.forceLost n gaveUp
  | .lostNode n => s.nodes[n]?.map (s.lostNode n)
  | .setRole addr n t role => s.nodes[n]?.map (s.setRole addr n t role)
  | .setAddr addr n t role => some (s.setAddr addr n t role)
  | .newNode addr n role => some { s with newNodes := s.newNodes ++ [(addr, role, n)] }
  | .connecting _ _ => none

/-- `connect_callback` with an fd. -/
def connected (n : ℕ) : Cluster :=
  let t := s.transports.length
  { s with transports := s.transports ++ [Transport.mk .initial (some n)] }.bind n t

/-- `connect_callback` with an error. -/
def connectFailed (addr : Address) (n : ℕ) (x : Node) : Cluster :=
  if limit < x.connectRetriedCount then s.add (.transportLost n) else s.add (.asyncConnect addr n)

/-- `init_message` of an init message, up to `set_role`. -/
def initMessage (t : ℕ) (addr : Address) (role : UInt8) : Option ℕ → Cluster
  | some n => (s.setState t .initializing).add (.setRole addr n t role)
  | none =>
    if addr.connectable then (s.setState t .initializing).getSession addr (.rebind t role)
    else s.close t none

/-- `basic_session::shutdown`. -/
def shutdown (n : ℕ) (x : Node) : Cluster :=
  let s := s.setNode n fun x => { x with binds := [] }
  if x.binds.isEmpty then s else s.add (.transportLost n)

/-- The reply of a `KeepAlive` of the manager, where it has failed. -/
def keepAliveFailed (n : ℕ) (x : Node) : Cluster :=
  let s := s.setNode n fun x => { x with connectRetriedCount := x.connectRetriedCount + 1 }
  if 5 < x.connectRetriedCount + 1 then s.shutdown n x else s

/-- What the node lives by. -/
def Held (n : ℕ) : Prop :=
  (∃ task ∈ s.tasks, task.node = some n) ∨
    ∃ x ∈ s.transports, x.state ≠ .closed ∧ x.session = some n

instance (n : ℕ) : Decidable (s.Held n) := inferInstanceAs (Decidable (_ ∨ _))

inductive Act
  /-- `get_session`, or `get_node`. -/
  | getSession (addr : Address) (node : Bool)
  | run (k : ℕ)
  | connected (k : ℕ)
  | connectFailed (k : ℕ)
  | accepted
  | initMessage (t : ℕ) (addr : Address) (role : UInt8)
  /-- The first message is not an init message. -/
  | rpcMessage (t : ℕ)
  | close (t : ℕ)
  | keepAliveFailed (n : ℕ)
  | stepTimeout
  | expire (n : ℕ)
  deriving DecidableEq, Repr

/-- Task `k` is over. -/
def drop (k : ℕ) : Cluster := { s with tasks := s.tasks.eraseIdx k }

def step (s : Cluster) : Act → Option Cluster
  | .getSession addr node => some (s.getSession addr (if node then .node else .session))
  | .run k => s.tasks[k]?.bind fun task => (s.drop k).run limit task
  | .connected k =>
    match s.tasks[k]? with
    | some (.connecting _ n) => some ((s.drop k).connected n)
    | _ => none
  | .connectFailed k =>
    match s.tasks[k]? with
    | some (.connecting addr n) => s.nodes[n]?.map ((s.drop k).connectFailed limit addr n)
    | _ => none
  | .accepted => some { s with transports := s.transports ++ [Transport.mk .initial none] }
  | .initMessage t addr role =>
    match s.transports[t]? with
    | some ⟨.initial, session⟩ => some (s.initMessage t addr role session)
    | _ => none
  | .rpcMessage t =>
    match s.transports[t]? with
    | some ⟨.initial, some n⟩ => some (s.close t (some n))
    | some ⟨.initial, none⟩ => some (s.setState t .subsys)
    | _ => none
  | .close t =>
    match s.transports[t]? with
    | some x =>
      if x.state = .initializing ∨ x.state = .closed then none else some (s.close t x.session)
    | none => none
  | .keepAliveFailed n => if s.usable n then s.nodes[n]?.map (s.keepAliveFailed n) else none
  | .stepTimeout => some { s with sessions := s.sessions.filter fun p => s.usable p.2 }
  | .expire n => if s.Held n then none else some (s.setNode n fun x => { x with alive := false })

/-- `for_each_node`; `role()` of a node without a role is -1 as a `uint8_t`. -/
def eachNode (role : UInt8) : List Address :=
  (s.sessions.filter fun p => s.usable p.2).filterMap fun p =>
    s.nodes[p.2]?.bind fun x => if x.role.getD 255 = role then some x.addr else none

end Cluster

end Kumofs.Rpc
