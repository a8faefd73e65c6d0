import Kumofs.Hash

/-!
# Where the gateway sends a request

`resource::server_for` of `logic/gateway/mod_store.cc`, a walk over the ring of its own.
-/

namespace Kumofs.Gateway

open HashSpace

/-- `server_for`: the address of the node the iterator is at when the walk gets to `node_found`.
A walk that is not cut short gets there too, at the last node it looked at or, when it went all
the way round, at the first. -/
def serverFor (hs : HashSpace) (h : UInt64) (offset : ℕ) : Except String Address :=
  if hs.empty then .error "No server"
  else
    let ring := hs.reals
    let origin := hs.find h
    match ring[origin]? with
    | none => .error "No server"
    | some r0 =>
      if offset = 0 ∧ r0.active then .ok r0.addr
      else
        let offset := offset - 1
        match seek ring origin (· == r0) ring.length (iterNext ring.length origin) with
        | none => .ok r0.addr
        | some (it, rep1) =>
          if offset = 0 ∧ rep1.active then .ok rep1.addr
          else
            match seek ring origin (fun r => r == r0 || r == rep1) ring.length
                (iterNext ring.length it) with
            | none => .ok r0.addr
            | some (_, rep2) => .ok rep2.addr

end Kumofs.Gateway
