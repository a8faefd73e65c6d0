import Kumofs.Clock
import Mathlib.Data.List.Lex
import Mathlib.Data.List.Sort
import Mathlib.Data.Prod.Lex

/-!
# The hash space

`logic/hash.h`, `logic/hash.cc`, `rpc/address.h` and the walk `EACH_ASSIGN` of
`logic/server/framework.h`. A hash space is a list of nodes, each active or faulty, and the ring of
their virtual nodes sorted by hash. The ring keeps copies of the nodes, so it goes its own way from
the node list until it is built again.

The hash is a parameter: the source takes eight bytes of SHA1.
-/

namespace Kumofs

abbrev Bytes := List UInt8

/-- `NUM_REPLICATION`: the copies of an entry besides the first. -/
def numReplication : ℕ := 2

/-- `HASHSPACE_VIRTUAL_NODE_NUMBER`. -/
def virtualNodeNumber : ℕ := 128

/-- `rpc::address`, the port and the IPv4 or IPv6 address as they are dumped. -/
structure Address where
  dump : Bytes
  deriving DecidableEq, Repr, Inhabited

namespace Address

/-- The shorter address is the smaller one, and those of one length compare as bytes do. -/
def key (a : Address) : ℕ ×ₗ List ℕ := toLex (a.dump.length, a.dump.map UInt8.toNat)

theorem key_injective : Function.Injective key := by
  rintro ⟨a⟩ ⟨b⟩ h
  have hm : a.map UInt8.toNat = b.map UInt8.toNat := congrArg (fun k => (ofLex k).2) h
  exact congrArg _ (List.map_injective_iff.2 (fun _ _ => UInt8.toNat_inj.1) hm)

instance : LinearOrder Address := LinearOrder.lift' key key_injective

/-- `connectable`: the port is set. -/
def connectable (a : Address) : Bool := (a.dump.take 2).any (· != 0)

end Address

/-- `HashSpace::node`. -/
structure Node where
  addr : Address
  active : Bool
  deriving DecidableEq, Repr

/-- `HashSpace::virtual_node`. -/
structure VirtualNode where
  hash : UInt64
  real : Node
  deriving DecidableEq, Repr

/-- `HashSpace::Seed`, a hash space as it is sent. -/
structure Seed where
  nodes : List Node
  clocktime : ClockTime
  deriving DecidableEq, Repr

/-- `HashSpace::Seed::empty`: no node is active. -/
def Seed.empty (s : Seed) : Bool := !s.nodes.any (·.active)

/-- The addresses of the active nodes. -/
def Seed.getActiveNodes (s : Seed) : List Address := (s.nodes.filter (·.active)).map (·.addr)

structure HashSpace where
  hashspace : List VirtualNode
  nodes : List Node
  timestamp : ClockTime
  deriving DecidableEq, Repr

/-- The eight bytes of a number as they lie in memory. -/
def le64 (x : UInt64) : Bytes :=
  (List.range 8).map fun i => (x >>> (8 * i).toUInt64).toUInt8

namespace HashSpace

/-- `HashSpace(ClockTime)`: no nodes. -/
def init : HashSpace := ⟨[], [], .zero⟩

/-- `Seed(HashSpace&)`. -/
def seed (hs : HashSpace) : Seed := ⟨hs.nodes, hs.timestamp⟩

def clocktime (hs : HashSpace) : ClockTime := hs.timestamp

/-- `HashSpace::empty`: no node is active. -/
def empty (hs : HashSpace) : Bool := !hs.nodes.any (·.active)

/-- `get_active_nodes`. -/
def getActiveNodes (hs : HashSpace) : List Address := hs.seed.getActiveNodes

/-- `server_is_include`. -/
def serverIsInclude (hs : HashSpace) (a : Address) : Bool := hs.nodes.any (·.addr == a)

/-- `server_is_active`: the first node of that address is active. -/
def serverIsActive (hs : HashSpace) (a : Address) : Bool :=
  (hs.nodes.find? (·.addr == a)).any (·.active)

/-! ## The ring -/

section Ring

variable (hash : Bytes → UInt64)

/-- The hashes of a node's virtual nodes: each is the hash of the one before. -/
def virtualHashes : ℕ → UInt64 → List UInt64
  | 0, _ => []
  | n + 1, x => x :: virtualHashes n (hash (le64 x))

/-- `add_virtual_nodes`. -/
def addVirtualNodes (ring : List VirtualNode) (n : Node) : List VirtualNode :=
  ring ++ (virtualHashes hash virtualNodeNumber (hash n.addr.dump)).map (⟨·, n⟩)

/-- `std::stable_sort` by the hash. -/
def stableSort (ring : List VirtualNode) : List VirtualNode :=
  ring.insertionSort fun x y => x.hash ≤ y.hash

/-- `rehash`: the ring of a list of nodes. -/
def rehash (nodes : List Node) : List VirtualNode :=
  stableSort (nodes.foldl (addVirtualNodes hash) [])

/-- `HashSpace(const Seed&)`. -/
def ofSeed (s : Seed) : HashSpace := ⟨rehash hash s.nodes, s.nodes, s.clocktime⟩

/-- `add_server`. -/
def addServer (hs : HashSpace) (ct : ClockTime) (a : Address) : HashSpace :=
  { hashspace := stableSort (addVirtualNodes hash hs.hashspace ⟨a, true⟩)
    nodes := hs.nodes ++ [⟨a, true⟩]
    timestamp := ct }

/-- `remove_server`. -/
def removeServer (hs : HashSpace) (ct : ClockTime) (a : Address) : HashSpace × Bool :=
  if hs.serverIsInclude a then
    let nodes := hs.nodes.eraseP (·.addr == a)
    (⟨rehash hash nodes, nodes, ct⟩, true)
  else (hs, false)

/-- `remove_fault_servers`. -/
def removeFaultServers (hs : HashSpace) (ct : ClockTime) : HashSpace × Bool :=
  if hs.nodes.any (!·.active) then
    let nodes := hs.nodes.filter (·.active)
    (⟨rehash hash nodes, nodes, ct⟩, true)
  else (hs, false)

end Ring

/-- The node list with the first node of that address set active or not. -/
def setActive (a : Address) (b : Bool) : List Node → List Node
  | [] => []
  | n :: ns => if n.addr == a then ⟨n.addr, b⟩ :: ns else n :: setActive a b ns

/-- `fault_server`. Only the node list changes: the ring keeps the node as it was. -/
def faultServer (hs : HashSpace) (ct : ClockTime) (a : Address) : HashSpace × Bool :=
  if hs.serverIsInclude a then
    ({ hs with nodes := setActive a false hs.nodes, timestamp := ct }, true)
  else (hs, false)

/-- `recover_server`. -/
def recoverServer (hs : HashSpace) (ct : ClockTime) (a : Address) : HashSpace × Bool :=
  if hs.serverIsInclude a then
    ({ hs with nodes := setActive a true hs.nodes, timestamp := ct }, true)
  else (hs, false)

/-- The calls that change a hash space, each with its clock time. -/
inductive Mutation
  | addServer (ct : ClockTime) (a : Address)
  | removeServer (ct : ClockTime) (a : Address)
  | faultServer (ct : ClockTime) (a : Address)
  | recoverServer (ct : ClockTime) (a : Address)
  | removeFaultServers (ct : ClockTime)
  deriving DecidableEq, Repr

/-- The hash space after a call. Addresses are distinct: a server is added only where it is not yet
included. -/
def mutate (hash : Bytes → UInt64) (hs : HashSpace) : Mutation → Option HashSpace
  | .addServer ct a => if hs.serverIsInclude a then none else some (addServer hash hs ct a)
  | .removeServer ct a => some (removeServer hash hs ct a).1
  | .faultServer ct a => some (hs.faultServer ct a).1
  | .recoverServer ct a => some (hs.recoverServer ct a).1
  | .removeFaultServers ct => some (removeFaultServers hash hs ct).1

/-! ## The assignment of a hash -/

/-- `HashSpace::find`, as the position of the iterator: `std::lower_bound`, and the first virtual
node past the last. -/
def find (hs : HashSpace) (h : UInt64) : ℕ :=
  let it := hs.hashspace.findIdx fun v => !decide (v.hash < h)
  if it = hs.hashspace.length then 0 else it

/-- `iterator::operator++` on a ring of `n` virtual nodes. -/
def iterNext (n it : ℕ) : ℕ := if it + 1 = n then 0 else it + 1

/-- `for(; it != origin; ++it) { if(skip(*it)) { continue; } .. break; }`: where the loop body gets
past the `continue`, if it does before the walk is back at the origin. -/
def seek (ring : List Node) (origin : ℕ) (skip : Node → Bool) : ℕ → ℕ → Option (ℕ × Node)
  | 0, _ => none
  | fuel + 1, it =>
    if it = origin then none
    else
      match ring[it]? with
      | none => none
      | some r =>
        if skip r then seek ring origin skip fuel (iterNext ring.length it) else some (it, r)

/-- The nodes of the ring. -/
def reals (hs : HashSpace) : List Node := hs.hashspace.map (·.real)

/-- `EACH_ASSIGN`: the nodes `REAL` takes, in order. An empty ring has none: there the source
reads past the end. -/
def eachAssign (hs : HashSpace) (h : UInt64) : List Node :=
  let ring := hs.reals
  let origin := hs.find h
  match ring[origin]? with
  | none => []
  | some r0 =>
    r0 :: match seek ring origin (· == r0) ring.length (iterNext ring.length origin) with
      | none => []
      | some (it, rep1) =>
        rep1 :: match seek ring origin (fun r => r == r0 || r == rep1) ring.length
            (iterNext ring.length it) with
          | none => []
          | some (_, rep2) => [rep2]

/-- The addresses of the active nodes `EACH_ASSIGN` visits. -/
def activeAssigned (hs : HashSpace) (h : UInt64) : List Address :=
  ((hs.eachAssign h).filter (·.active)).map (·.addr)

end HashSpace

end Kumofs
