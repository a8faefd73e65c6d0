import Kumofs.Lib.Run
import Mathlib.Data.List.Basic

/-!
# The peers of a server

`rpc/server.h` and `rpc/server.cc`, and `subsys::add_session` of `rpc/cluster.cc`: the clients of a
server, in a map from the place of a peer in memory to a weak pointer to it. A peer is freed when
nobody has a pointer to it, and then another one may be at its place. `accepted` puts a peer into
the map after its transport has been added, `subsys::add_session` before the transport is bound to
it; `transport_lost_notify` takes it out first and says that it is lost once the lock is given up.

A peer has one transport, which goes by the number of the peer, as the tasks do. What is there of
the pointers to a peer besides those of its transport and of the tasks only lets it live longer.
-/

namespace Kumofs.Rpc

structure Peer where
  /-- Where it is in memory. -/
  place : ℕ
  lost : Bool
  alive : Bool
  deriving DecidableEq, Repr

/-- What is under way, with a pointer to the peer. -/
inductive PeerTask
  /-- `accepted` after `wavy::add`. -/
  | insert (p : ℕ)
  /-- `rebind` of `init_message`. -/
  | rebind (p : ℕ)
  /-- `transport_lost_notify`, submitted. -/
  | transportLost (p : ℕ)
  /-- `transport_lost_notify` after it has given up the lock. -/
  | forceLost (p : ℕ)
  deriving DecidableEq, Repr

def PeerTask.peer : PeerTask → ℕ
  | .insert p | .rebind p | .transportLost p | .forceLost p => p

structure Peers where
  peers : List Peer
  /-- The transports that are bound to a peer. -/
  transports : List ℕ
  tasks : List PeerTask
  /-- `m_peers`: the places and the peers. -/
  map : List (ℕ × ℕ)
  deriving DecidableEq

namespace Peers

variable (s : Peers)

def init : Peers := ⟨[], [], [], []⟩

/-- `p && !p->is_lost()` of a `weak_ptr` that is locked. -/
def usable (p : ℕ) : Bool := (s.peers[p]?).any fun x => x.alive && !x.lost

/-- `std::map::insert`, which leaves an entry alone that is there. -/
def insert (place p : ℕ) : Peers :=
  if s.map.any fun e => e.1 == place then s else { s with map := s.map ++ [(place, p)] }

def erase (place : ℕ) : Peers := { s with map := s.map.filter fun e => e.1 != place }

def setPeer (p : ℕ) (f : Peer → Peer) : Peers := { s with peers := s.peers.modify p f }

def add (task : PeerTask) : Peers := { s with tasks := s.tasks ++ [task] }

/-- `new peer(this)`. -/
def create (place : ℕ) : Peers := { s with peers := s.peers ++ [⟨place, false, true⟩] }

/-- `accepted`, up to the lock. -/
def accepted (place : ℕ) : Peers :=
  let p := s.peers.length
  { s.create place with transports := s.transports ++ [p] }.add (.insert p)

/-- `subsys::add_session`. -/
def addSession (place : ℕ) : Peers :=
  let p := s.peers.length
  ((s.create place).insert place p).add (.rebind p)

/-- `transport_lost_notify`, under the lock. -/
def transportLostNotify (p : ℕ) (x : Peer) : Peers := (s.erase x.place).add (.forceLost p)

def forceLost (p : ℕ) : Peers := s.setPeer p fun x => { x with lost := true }

def run : PeerTask → Option Peers
  | .insert p => s.peers[p]?.map fun x => s.insert x.place p
  | .rebind p => some { s with transports := s.transports ++ [p] }
  | .transportLost p => s.peers[p]?.map (s.transportLostNotify p)
  | .forceLost p => some (s.forceLost p)

/-- Somebody has a pointer to the peer. -/
def Held (p : ℕ) : Prop := p ∈ s.transports ∨ ∃ task ∈ s.tasks, task.peer = p

instance (p : ℕ) : Decidable (s.Held p) := inferInstanceAs (Decidable (_ ∨ _))

inductive Act
  /-- There is a place where no peer is. -/
  | accepted (place : ℕ)
  | addSession (place : ℕ)
  | run (k : ℕ)
  /-- The transport goes, and with it the only one of its peer. -/
  | close (k : ℕ)
  | stepTimeout
  /-- Nobody has a pointer to the peer. -/
  | free (p : ℕ)
  deriving DecidableEq, Repr

/-- No peer is there. -/
def vacant (place : ℕ) : Bool := s.peers.all fun x => !x.alive || x.place != place

def step (s : Peers) : Act → Option Peers
  | .accepted place => if s.vacant place then some (s.accepted place) else none
  | .addSession place => if s.vacant place then some (s.addSession place) else none
  | .run k => s.tasks[k]?.bind fun task => { s with tasks := s.tasks.eraseIdx k }.run task
  | .close k => s.transports[k]?.map fun p =>
    { s with transports := s.transports.eraseIdx k }.add (.transportLost p)
  | .stepTimeout => some { s with map := s.map.filter fun e => s.usable e.2 }
  | .free p =>
    if s.Held p then none else some (s.setPeer p fun x => { x with alive := false })

/-- The peers that `for_each_peer` comes to. -/
def eachPeer : List ℕ := (s.map.map Prod.snd).filter s.usable

end Peers

end Kumofs.Rpc
