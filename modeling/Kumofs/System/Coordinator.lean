import Kumofs.Lib.Run
import Kumofs.Server.Store

/-!
# Requests at one coordinator

One `Set` or `Delete` after the other at one server, each handled to the end of its handler. The
replies of the replicas do not come to the storage, and are left out. What the requests did to the
database is recorded, and for a `Delete` whether the key had a value and what `remove` returned.
-/

namespace Kumofs

open Server

/-- What a request has done to the database. -/
inductive Served
  | set (key : DBKey)
  | delete (key : DBKey) (live deleted : Bool)
  deriving DecidableEq

structure Coordinator where
  srv : State
  /-- The request that is handled. -/
  cur : Option (DBKey × Handler)
  /-- The clocktimes the requests have taken. -/
  stamps : List ClockTime
  /-- What the requests did, the last first. -/
  log : List Served

namespace Coordinator

def init (srv : State) : Coordinator := ⟨srv, none, [], []⟩

inductive Act
  | request (key : DBKey) (op : Op)
  /-- The handler goes on. -/
  | go
  /-- Time passes, or the clock is adjusted. -/
  | clock (clock : ClockLogic)

/-- What the handler does to the database when it goes on. A `CAS` that fails does nothing. -/
def served (key : DBKey) (s : State) (h : Handler) : Option Served :=
  match h.pc, h.op with
  | .apply, .delete _ =>
    some (.delete key (s.storage.get key.raw).isSome (s.storage.remove key.raw h.ct).2)
  | .apply, .cas val =>
    if (s.storage.cas key.raw h.rawVal val.clocktime).2 then some (.set key) else none
  | .send, .set _ _ =>
    if h.calls.findIdx? (·.status = .unsent) = none then some (.set key) else none
  | _, _ => none

def goOn (s : Coordinator) (key : DBKey) (h : Handler) : Coordinator :=
  let r := h.step key s.srv
  { srv := r.1
    cur := if r.2.1.pc = .done ∨ r.2.1.pc = .refused then none else some (key, r.2.1)
    stamps := if h.pc = .stamp then r.2.1.ct :: s.stamps else s.stamps
    log := (served key s.srv h).toList ++ s.log }

def step (self : Address) (s : Coordinator) : Act → Option Coordinator
  | .request key op =>
    if s.cur = none then some { s with cur := some (key, .init self op) } else none
  | .go => s.cur.map fun r => s.goOn r.1 r.2
  | .clock clock => some { s with srv := { s.srv with clock := clock } }

end Coordinator

end Kumofs
