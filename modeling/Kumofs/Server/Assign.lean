import Kumofs.Hash

/-!
# Who writes a key

The checks a server makes before it serves a key and the replicas a coordinator computes,
`logic/server/mod_store.cc`. `self` is `net->addr()`.
-/

namespace Kumofs.Server

/-- `check_replicator_assign`: the walk returns at the first active node that is this server. -/
def checkReplicatorAssign (self : Address) (hs : HashSpace) (h : UInt64) : Except String Unit :=
  if hs.empty then .error "server not ready"
  else if (hs.eachAssign h).any fun r => r.active && r.addr == self then .ok ()
  else .error "obsolete hash space"

/-- `check_coordinator_assign`: the first active node decides, and a walk that meets none ends
without an error. -/
def checkCoordinatorAssign (self : Address) (hs : HashSpace) (h : UInt64) : Except String Unit :=
  if hs.empty then .error "server not ready"
  else
    match (hs.eachAssign h).find? (·.active) with
    | none => .ok ()
    | some r => if r.addr ≠ self then .error "obsolete hash space" else .ok ()

/-- `EACH_ASSIGNED_ACTIVE_NODE_EXCLUDE_ONE`. -/
def assignedActiveExcludeOne (exclude : Address) (hs : HashSpace) (h : UInt64) : List Address :=
  ((hs.eachAssign h).filter fun r => r.addr ≠ exclude ∧ r.active).map (·.addr)

/-- `EACH_ASSIGNED_ACTIVE_NODE_EXCLUDE_N`. -/
def assignedActiveExcludeN (excludes : List Address) (hs : HashSpace) (h : UInt64) :
    List Address :=
  ((hs.eachAssign h).filter fun r => r.active ∧ r.addr ∉ excludes).map (·.addr)

/-- What `calc_replicators` writes: the two arrays of its caller, and its own `wrep_addrs`. -/
structure Replicators where
  rrepto : List Address
  wrepto : List Address
  wrepAddrs : List Address
  deriving DecidableEq, Repr

/-- `calc_replicators`. Equal clocktimes are taken to mean that the two hash spaces are one. -/
def calcReplicators (self : Address) (whs rhs : HashSpace) (h : UInt64) :
    Except String Replicators :=
  match checkCoordinatorAssign self whs h with
  | .error e => .error e
  | .ok () =>
    let wrepto := assignedActiveExcludeOne self whs h
    if whs.clocktime = rhs.clocktime then .ok ⟨[], wrepto, []⟩
    else if rhs.empty then .error "server not ready"
    else
      let wrepAddrs := wrepto ++ [self]
      .ok ⟨assignedActiveExcludeN wrepAddrs rhs h, wrepto, wrepAddrs⟩

end Kumofs.Server
