import Kumofs.Gateway.Request

/-!
# The attempts of a request

A request of the gateway with the calls that were made for it, and the number of them that the
configuration promises.
-/

namespace Kumofs.Gateway

/-- The reply makes the gateway retry, or give up. -/
def Query.fails : Query → Option Reply → Bool
  | _, none => true
  | _, some (.response (.error _)) => true
  | .set, some (.response .null) => true
  | .delete, some (.response .null) => true
  | _, _ => false

/-- The attempts that there may be: each replica so many times, or one and the retries. -/
def attemptLimit (cfg : Config) : Query → ℕ
  | .get | .getIfModified _ => max 1 ((numReplication + 1) * cfg.getRetryNum.toNat)
  | .set => cfg.setRetryNum.toNat + 1
  | .delete => cfg.deleteRetryNum.toNat + 1

structure Attempting where
  pending : Pending
  /-- The calls that were made. -/
  attempts : ℕ
  /-- The replies of calls. -/
  replies : ℕ

namespace Attempting

open Pending (Act)

def init (query : Query) : Attempting := ⟨.init query, 0, 0⟩

/-- An action that may make a call. -/
def mayCall : Act → Bool
  | .hashSpacePush _ _ => false
  | .submit | .outcome _ | .fire => true

def isReply : Act → Bool
  | .outcome _ => true
  | _ => false

def step (hash : Bytes → UInt64) (cfg : Config) (h : UInt64) (s : Attempting) (a : Act) :
    Option Attempting :=
  (s.pending.step hash cfg h a).map fun p =>
    { pending := p
      attempts := s.attempts + if mayCall a ∧ p.phase = .calling then 1 else 0
      replies := s.replies + if isReply a then 1 else 0 }

/-- Every reply fails. -/
def Fails (s : Attempting) : Act → Prop
  | .outcome res => s.pending.query.fails res = true
  | _ => True

/-- The attempts stay within their number, and the user is called back with an error by the time
they have all failed. -/
structure Bounded (cfg : Config) (query : Query) (s : Attempting) : Prop where
  attempts_le : s.attempts ≤ attemptLimit cfg query
  ended : s.replies = attemptLimit cfg query → s.pending.phase = .over
  called : s.pending.phase = .over → s.pending.called = [s.pending.caught]

end Attempting

end Kumofs.Gateway
