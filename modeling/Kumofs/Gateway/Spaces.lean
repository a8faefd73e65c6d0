import Kumofs.Gateway.Request

/-!
# The hash spaces of a gateway

`HashSpacePush` and the reply of `HashSpaceRequest` of `logic/gateway/mod_network.cc`, with
`update_whs` and `update_rhs` of `logic/gateway/framework.h`. Both managers push to the gateways
that are connected to them whenever a hash space changes, and answer the requests of a gateway that
has connected again, so that the same seeds come in any order and any number of times.
-/

namespace Kumofs.Gateway

structure Spaces where
  whs : HashSpace
  rhs : HashSpace

namespace Spaces

def init : Spaces := ⟨.init, .init⟩

/-- `HashSpacePush`, with a `wseed` and an `rseed`; what a reply of `HashSpaceRequest` does is the
same. -/
def hashSpacePush (hash : Bytes → UInt64) (s : Spaces) (p : Seed × Seed) : Spaces :=
  { whs := Pending.update hash s.whs p.1, rhs := Pending.update hash s.rhs p.2 }

/-- A gateway that has got these. -/
def after (hash : Bytes → UInt64) (l : List (Seed × Seed)) : Spaces :=
  l.foldl (hashSpacePush hash) init

end Spaces

end Kumofs.Gateway
