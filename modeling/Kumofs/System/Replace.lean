import Kumofs.Lib.Run
import Kumofs.Server.Replace

/-!
# A replace without failures

The servers active in the new hash space scan their databases, each once and at its own time. The
records they offer are applied at their receivers in any order. Once all of that is done, the
servers delete what they do not have to keep.
-/

namespace Kumofs

structure Replacing where
  store : Address → Storage
  scanned : List Address
  /-- The records on their way, with their sender. -/
  pending : List (Address × Server.Offer)
  /-- All records offered so far. -/
  offered : List (Address × Server.Offer)
  deleted : List Address

namespace Replacing

def start (store : Address → Storage) : Replacing := ⟨store, [], [], [], []⟩

inductive Act
  | scan (n : Address) (now : ClockTime)
  | apply (k : ℕ)
  | delete (n : Address) (now : ClockTime)

/-- Every server active in `dst` has scanned its database, and every record offered is applied. -/
def Copied (dst : HashSpace) (s : Replacing) : Prop :=
  (∀ n ∈ dst.getActiveNodes, n ∈ s.scanned) ∧ s.pending = []

instance (dst : HashSpace) (s : Replacing) : Decidable (s.Copied dst) :=
  inferInstanceAs (Decidable (_ ∧ _))

variable (src dst : HashSpace)

def step (s : Replacing) : Act → Option Replacing
  | .scan n now =>
    if n ∈ dst.getActiveNodes ∧ n ∉ s.scanned then
      let r := Server.replaceCopy n src dst now (s.store n)
      let offers := r.2.map (n, ·)
      some
        { s with
          store := Function.update s.store n r.1
          scanned := n :: s.scanned
          pending := s.pending ++ offers
          offered := s.offered ++ offers }
    else none
  | .apply k =>
    s.pending[k]?.map fun o =>
      { s with
        store := Function.update s.store o.2.dest (Server.submitMessage (s.store o.2.dest) o.2)
        pending := s.pending.eraseIdx k }
  | .delete n now =>
    if s.Copied dst ∧ n ∈ dst.getActiveNodes ∧ n ∉ s.deleted then
      some
        { s with
          store := Function.update s.store n (Server.replaceDelete n dst now (s.store n))
          deleted := n :: s.deleted }
    else none

/-- The copy phase is over, and every server active in `dst` has run its delete phase. -/
def Complete (s : Replacing) : Prop :=
  s.Copied dst ∧ ∀ n ∈ dst.getActiveNodes, n ∈ s.deleted

instance (s : Replacing) : Decidable (s.Complete dst) := inferInstanceAs (Decidable (_ ∧ _))

end Replacing

end Kumofs
