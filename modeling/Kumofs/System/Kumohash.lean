import Kumofs.Gate.Interface
import Kumofs.Lib.Endian

/-!
# `kumohash`

`KumoRPC::HashSpace` of `command/kumoctl`, and `assign` of `command/kumohash`, on a little-endian
host. An object is told by its place among the nodes: two nodes are the same only as objects. What
`Array#sort!` makes of equal elements is open, as SHA1 is.
-/

namespace Kumofs.Kumohash

/-- `SHA1`, and `sort!` of the virtual nodes. -/
structure Ruby where
  digest : Bytes → Bytes
  sort : List (UInt64 × ℕ) → List (UInt64 × ℕ)

/-- The digest has 20 bytes, and `sort!` sorts by `<=>`. -/
structure Ruby.Documented (R : Ruby) : Prop where
  length_digest : ∀ s, (R.digest s).length = 20
  sort_perm : ∀ l, (R.sort l).Perm l
  sort_sorted : ∀ l, (R.sort l).Pairwise fun v w => v.1 ≤ w.1

/-- An IPv4 address. -/
structure Ipv4 where
  a : UInt8
  b : UInt8
  c : UInt8
  d : UInt8
  deriving DecidableEq

def Ipv4.bytes (ip : Ipv4) : Bytes := [ip.a, ip.b, ip.c, ip.d]

/-- `struct sockaddr_in` as it lies in memory: the family, the port, the address, and zeros. -/
def sockaddrIn (port : UInt16) (ip : Ipv4) : Bytes :=
  [2, 0] ++ Gate.toBe16 port ++ ip.bytes ++ List.replicate 8 0

/-- `HashSpace::Node`. -/
structure Node where
  addr : Ipv4
  port : UInt16
  isActive : Bool
  deriving DecidableEq

/-- `dump_addr`. -/
def Node.dumpAddr (n : Node) : Bytes := ((sockaddrIn n.port n.addr).drop 2).take 6

/-- `HashSpace`; a virtual node is its hash and its node. -/
structure Space where
  nodes : List Node
  space : List (UInt64 × ℕ)

section

variable (R : Ruby)

/-- `HashSpace.hash`: `unpack('Q')` of eight bytes. -/
def hash (str : Bytes) : UInt64 := UInt64.ofNat (Endian.value ((R.digest str).take 8))

/-- `pack('Q')`. -/
def packQ (x : UInt64) : Bytes := Endian.bytes 8 x.toNat

def virtualNodeNumber : ℕ := 128

/-- The loop of `add_virtual_nodes`. -/
def chain (real : ℕ) : ℕ → UInt64 → List (UInt64 × ℕ)
  | 0, _ => []
  | n + 1, x =>
    let x := hash R (packQ x)
    (x, real) :: chain real n x

/-- `add_virtual_nodes`. -/
def addVirtualNodes (space : List (UInt64 × ℕ)) (real : ℕ) (node : Node) : List (UInt64 × ℕ) :=
  let x := hash R node.dumpAddr
  space ++ (x, real) :: chain R real (virtualNodeNumber - 1) x

/-- `add_server`. -/
def addServer (s : Space) (node : Node) : Space :=
  ⟨s.nodes ++ [node], R.sort (addVirtualNodes R s.space s.nodes.length node)⟩

/-- `create_hs`. -/
def createHs (servers : List Node) : Space := servers.foldl (addServer R) ⟨[], []⟩

/-- `find_each` from the place `i` on, for so many more rounds: the block gives true to go on. -/
def walk {σ : Type} (space : List (UInt64 × ℕ)) (block : σ → ℕ → σ × Bool) : ℕ → ℕ → σ → σ
  | 0, _, s => s
  | n + 1, i, s =>
    match space[i % space.length]? with
    | none => s
    | some v =>
      let r := block s v.2
      if r.2 then walk space block n (i + 1) r.1 else r.1

/-- `find_each`. -/
def findEach {σ : Type} (s : Space) (h : UInt64) (block : σ → ℕ → σ × Bool) (init : σ) : σ :=
  let first := (s.space.takeWhile fun v => v.1 < h).length
  walk s.space block s.space.length first init

/-- The block of `assign`. -/
def assignBlock (assign : List ℕ) (real : ℕ) : List ℕ × Bool :=
  if real ∈ assign then (assign, true)
  else (assign ++ [real], decide ((assign ++ [real]).length < 3))

/-- `assign`: the nodes that are listed for a key. -/
def assign (servers : List Node) (key : Bytes) : List Node :=
  let hs := createHs R servers
  (findEach hs (hash R key) assignBlock []).filterMap fun real => hs.nodes[real]?

end

/-! ## The same nodes for the servers -/

/-- `address(const sockaddr_in&)`. -/
def address (sa : Bytes) : Address := ⟨(sa.drop 2).take 2 ++ (sa.drop 4).take 4⟩

/-- The address of a node. -/
def Node.address (n : Node) : Address := Kumohash.address (sockaddrIn n.port n.addr)

/-- `HashSpace::hash` of `logic/hash.cc`: the first eight bytes of the digest as a `uint64_t`. -/
def serverHash (digest : Bytes → Bytes) (data : Bytes) : UInt64 :=
  UInt64.ofNat (Endian.value ((digest data).take 8))

/-- The nodes as they are told to servers. -/
def seed (servers : List Node) (ct : ClockTime) : Seed :=
  ⟨servers.map fun n => ⟨n.address, n.isActive⟩, ct⟩

/-- The hashes of all virtual nodes. -/
def virtualHashes (digest : Bytes → Bytes) (servers : List Node) : List UInt64 :=
  servers.flatMap fun n => HashSpace.virtualHashes (serverHash digest) Kumofs.virtualNodeNumber
    (serverHash digest n.address.dump)

end Kumofs.Kumohash
