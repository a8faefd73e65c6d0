import Kumofs.System.Store

/-!
# Coordinators of one key

Any number of `Set`, `CAS` and `Delete` handlers of one key on any servers. What the replicas
answer, if they do, is open, and so are the clocks that other messages bring; deletes of other keys
and scans collect garbage.
-/

namespace Kumofs

/-- The database operation of a `CAS`: what it compared with, what was there, and whether it put
its value. -/
structure Swap where
  srv : Address
  handler : ℕ
  compare : ClockTime
  stored : Option Bytes
  applied : Bool
  deriving DecidableEq

structure Swapping where
  srv : Address → Server.State
  handlers : List Server.Handler
  /-- No code reads the swaps, nor the clocktimes that the key has had on a server. -/
  swaps : List Swap
  had : Address → List ClockTime

namespace Swapping

inductive Act
  | request (a : Address) (op : Server.Op)
  | step (i : ℕ)
  /-- The callback of call `c` of handler `i`, with an answer or an error. -/
  | reply (i c : ℕ) (res : Except String Bool) (active : Bool)
  | clockUpdate (a : Address) (c : UInt32)
  | time (a : Address) (t : UInt32)
  | hashSpaces (a : Address) (whs rhs : HashSpace)
  /-- `Storage::remove` of another key. -/
  | removeOther (a : Address) (rawKey : Bytes) (ct : ClockTime)
  | forEach (a : Address) (now : ClockTime)

variable (cfg : StoreNet.Config)

/-- The entry of the key on a server. -/
def entry (s : Swapping) (a : Address) : Option Bytes := (s.srv a).storage.db.lookup cfg.key.raw

def init (srv : Address → Server.State) : Swapping where
  srv := srv
  handlers := []
  swaps := []
  had a := ((srv a).storage.db.lookup cfg.key.raw).toList.map Storage.clocktimeOf

def setSrv (s : Swapping) (a : Address) (x : Server.State) : Swapping :=
  { s with srv := Function.update s.srv a x }

def setStorage (s : Swapping) (a : Address) (x : Storage) : Swapping :=
  s.setSrv a { s.srv a with storage := x }

/-- The swap that the next step of handler `i` is. -/
def swapOf (s : Swapping) (i : ℕ) (h : Server.Handler) : List Swap :=
  match h.pc, h.op with
  | .apply, .cas val =>
    [⟨h.self, i, val.clocktime, s.entry cfg h.self, (h.step cfg.key (s.srv h.self)).2.1.wrote⟩]
  | _, _ => []

def step (s : Swapping) : Act → Option Swapping
  | .request a op => some { s with handlers := s.handlers ++ [.init a op] }
  | .step i => s.handlers[i]?.map fun h =>
    let r := h.step cfg.key (s.srv h.self)
    let now := (r.1.storage.db.lookup cfg.key.raw).toList.map Storage.clocktimeOf
    { s.setSrv h.self r.1 with
      handlers := s.handlers.set i r.2.1
      swaps := s.swaps ++ s.swapOf cfg i h
      had := Function.update s.had h.self (now ++ s.had h.self) }
  | .reply i c res active => s.handlers[i]?.bind fun h =>
    (h.calls[c]?.filter (·.status = .waiting)).map fun call =>
      { s with handlers := s.handlers.set i (h.onReply (cfg.retryNum h.op) c call res active).1 }
  | .clockUpdate a c =>
    some (s.setSrv a { s.srv a with clock := (s.srv a).clock.clockUpdate c })
  | .time a t => some (s.setSrv a { s.srv a with clock := (s.srv a).clock.clockUpdateTime t })
  | .hashSpaces a whs rhs => some (s.setSrv a { s.srv a with whs := whs, rhs := rhs })
  | .removeOther a rawKey ct =>
    if rawKey = cfg.key.raw then none
    else some (s.setStorage a ((s.srv a).storage.remove rawKey ct).1)
  | .forEach a now => some (s.setStorage a ((s.srv a).storage.sweep now))

/-- The swaps on a server that compared with a clocktime and put their value. -/
def successes (s : Swapping) (a : Address) (c : ClockTime) : List Swap :=
  s.swaps.filter fun w => w.applied && decide (w.srv = a) && decide (w.compare = c)

/-- A `CAS` puts its value if there is an entry of the clocktime it compares with; it tells its
caller so, and not otherwise; and of those that compare with one clocktime at most one does. -/
structure IsSwap (s : Swapping) : Prop where
  applied_iff : ∀ w ∈ s.swaps,
    w.applied = true ↔ ∃ e, w.stored = some e ∧ Storage.clocktimeOf e = w.compare
  reported : ∀ w ∈ s.swaps, ∃ h, s.handlers[w.handler]? = some h ∧
    (.bool false ∈ h.responses ↔ w.applied = false) ∧
    ∀ ct, .clocktime ct ∈ h.responses → w.applied = true
  one : ∀ a c, (s.successes a c).length ≤ 1

end Swapping

end Kumofs
