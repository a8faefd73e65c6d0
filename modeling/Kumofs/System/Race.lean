import Kumofs.Server.Replace
import Kumofs.System.Store

/-!
# Writes while a replace runs

The writers of one key and a replace from `src` to `dst` without failures. A server takes the new
hash space for `whs`, and later its scan passes the key; the records it offers are applied at
their receivers in any order; when all of that is done everywhere, the servers take `whs` for
`rhs` and delete what they need not keep. Between any two of these the handlers go on, each by the
hash spaces that its server has when it computes its replicas.
-/

namespace Kumofs

structure Racing where
  net : StoreNet
  switched : List Address
  scanned : List Address
  /-- The records on their way. -/
  pending : List Server.Offer
  deleted : List Address

namespace Racing

def start (srv : Address → Server.State) : Racing := ⟨.init srv, [], [], [], []⟩

inductive Act
  | store (a : StoreNet.Act)
  | switch (n : Address)
  | scan (n : Address) (now : ClockTime)
  | apply (k : ℕ)
  | delete (n : Address) (now : ClockTime)

/-- Every server active in `dst` has scanned its database, and every record offered is applied. -/
def Copied (dst : HashSpace) (s : Racing) : Prop :=
  (∀ n ∈ dst.getActiveNodes, n ∈ s.scanned) ∧ s.pending = []

instance (dst : HashSpace) (s : Racing) : Decidable (s.Copied dst) :=
  inferInstanceAs (Decidable (_ ∧ _))

def setStorage (s : Racing) (n : Address) (x : Storage) : Racing :=
  { s with net := s.net.setSrv n { s.net.srv n with storage := x } }

variable (cfg : StoreNet.Config) (src dst : HashSpace)

def step (s : Racing) : Act → Option Racing
  -- the hash spaces change by the replace alone
  | .store (.hashSpaces ..) => none
  | .store a => (s.net.step cfg a).map fun net => { s with net := net }
  | .switch n =>
    if n ∈ s.switched then none
    else some
      { s with
        net := s.net.setSrv n { s.net.srv n with whs := dst }
        switched := n :: s.switched }
  | .scan n now =>
    if n ∈ dst.getActiveNodes ∧ n ∈ s.switched ∧ n ∉ s.scanned then
      let r := Server.replaceCopy n src dst now (s.net.srv n).storage
      some
        { s.setStorage n r.1 with
          scanned := n :: s.scanned
          pending := s.pending ++ r.2 }
    else none
  | .apply k =>
    s.pending[k]?.map fun o =>
      { s.setStorage o.dest (Server.submitMessage (s.net.srv o.dest).storage o) with
        pending := s.pending.eraseIdx k }
  | .delete n now =>
    if s.Copied dst ∧ n ∈ dst.getActiveNodes ∧ n ∉ s.deleted then
      let x := s.net.srv n
      some
        { s with
          net := s.net.setSrv n
            { x with rhs := x.whs, storage := Server.replaceDelete n x.whs now x.storage }
          deleted := n :: s.deleted }
    else none

/-- The copy phase is over, and every server active in `dst` has run its delete phase. -/
def Complete (s : Racing) : Prop := s.Copied dst ∧ ∀ n ∈ dst.getActiveNodes, n ∈ s.deleted

instance (s : Racing) : Decidable (s.Complete dst) := inferInstanceAs (Decidable (_ ∧ _))

end Racing

end Kumofs
