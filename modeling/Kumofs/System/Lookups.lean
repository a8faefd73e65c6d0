import Kumofs.Server.Replace
import Kumofs.System.Spaces
import Kumofs.System.Storage

/-!
# Where a server looks up a hash

The lookups of `logic/server/mod_store.cc` and `logic/server/mod_replace.cc`, each with the hash
space it is made in: `EACH_ASSIGN` starts with `HashSpace::find` and reads the virtual node that it
gives, which an empty ring does not have. A task of a replace copies the hash spaces it needs when
it starts, and then goes over the database record by record, while other handlers run.
-/

namespace Kumofs.Server

/-- What a computation gives, and the hash spaces in which it looks up a hash. -/
structure Walked (α : Type) where
  value : α
  walks : List HashSpace

namespace Walked

def pure {α : Type} (a : α) : Walked α := ⟨a, []⟩

def bind {α β : Type} (x : Walked α) (f : α → Walked β) : Walked β :=
  ⟨(f x.value).value, x.walks ++ (f x.value).walks⟩

/-- `EACH_ASSIGN`. -/
def eachAssign (hs : HashSpace) (h : UInt64) : Walked (List Node) := ⟨hs.eachAssign h, [hs]⟩

variable (self : Address) (whs rhs hs : HashSpace) (h : UInt64)

/-- `check_replicator_assign`. -/
def checkReplicatorAssign : Walked (Except String Unit) :=
  if hs.empty then pure (.error "server not ready")
  else (eachAssign hs h).bind fun rs =>
    pure (if rs.any fun r => r.active && r.addr == self then .ok ()
      else .error "obsolete hash space")

/-- `check_coordinator_assign`. -/
def checkCoordinatorAssign : Walked (Except String Unit) :=
  if hs.empty then pure (.error "server not ready")
  else (eachAssign hs h).bind fun rs =>
    pure (match rs.find? (·.active) with
      | none => .ok ()
      | some r => if r.addr ≠ self then .error "obsolete hash space" else .ok ())

/-- `EACH_ASSIGNED_ACTIVE_NODE_EXCLUDE_ONE`. -/
def assignedActiveExcludeOne (exclude : Address) : Walked (List Address) :=
  (eachAssign hs h).bind fun rs =>
    pure ((rs.filter fun r => r.addr ≠ exclude ∧ r.active).map (·.addr))

/-- `EACH_ASSIGNED_ACTIVE_NODE_EXCLUDE_N`. -/
def assignedActiveExcludeN (excludes : List Address) : Walked (List Address) :=
  (eachAssign hs h).bind fun rs =>
    pure ((rs.filter fun r => r.active ∧ r.addr ∉ excludes).map (·.addr))

/-- `calc_replicators`. -/
def calcReplicators : Walked (Except String Replicators) :=
  (checkCoordinatorAssign self whs h).bind fun
    | .error e => pure (.error e)
    | .ok () =>
      if whs.clocktime = rhs.clocktime then
        (assignedActiveExcludeOne whs h self).bind fun wrepto => pure (.ok ⟨[], wrepto, []⟩)
      else if rhs.empty then pure (.error "server not ready")
      else (assignedActiveExcludeOne whs h self).bind fun wrepto =>
        (assignedActiveExcludeN rhs h (wrepto ++ [self])).bind fun rrepto =>
          pure (.ok ⟨rrepto, wrepto, wrepto ++ [self]⟩)

/-- `test_replicator_assign`. -/
def testReplicatorAssign : Walked Bool :=
  (eachAssign hs h).bind fun rs => pure (rs.any fun r => r.active && r.addr == self)

end Walked

/-- The scan of a task, with the hash spaces it has copied. -/
inductive Scan
  | replaceCopy (src dst : HashSpace)
  | fullReplaceCopy (dst : HashSpace)
  | replaceDelete (hs : HashSpace)
  deriving DecidableEq

namespace Scan

/-- The active nodes of `EACH_ASSIGN`, `Sa` and `Da`. -/
def actives (hs : HashSpace) (h : UInt64) : Walked (List Address) :=
  (Walked.eachAssign hs h).bind fun rs => .pure ((rs.filter (·.active)).map (·.addr))

/-- What the callback of a scan decides of a record: whom it is offered to, and whether it is
deleted. -/
def visit (self : Address) (h : UInt64) : Scan → Walked (List Address × Bool)
  | .replaceCopy src dst =>
    (actives src h).bind fun Sa => (actives dst h).bind fun Da =>
      .pure (if (Sa.filter (· ∉ faultNodes src dst)).head? = some self then Da.filter (· ∉ Sa)
        else [], false)
  | .fullReplaceCopy dst => (actives dst h).bind fun Da => .pure (Da, false)
  | .replaceDelete hs => (Walked.testReplicatorAssign self hs h).bind fun b => .pure ([], !b)

end Scan

/-- The scan that a task begins, if it begins one. -/
def beginScan (self : Address) (st : State) : Task → Option Scan
  | .replaceCopy hs => if skipsReplace self st.rhs hs then none else some (.replaceCopy st.rhs hs)
  | .fullReplaceCopy hs => some (.fullReplaceCopy hs)
  | .replaceDelete _ => if st.whs.empty then none else some (.replaceDelete st.whs)

end Kumofs.Server

namespace Kumofs

open Server

/-- A server with its tasks and their scans, and the hash spaces it has looked up a hash in. -/
structure Lookups where
  spaces : Spaces
  scans : List Scan
  walks : List HashSpace

namespace Lookups

/-- A server as it starts, on the database it finds. -/
def start (storage : Storage) (clock : ClockLogic) : Lookups :=
  ⟨⟨⟨.init, .init, storage, clock⟩, []⟩, [], []⟩

inductive Act
  /-- A message with hash spaces, or the start of a task. -/
  | spaces (a : Spaces.Act)
  /-- `Get` and `GetIfModified`. -/
  | get (key : DBKey)
  /-- `Set` and `Delete`, as far as `calc_replicators`. -/
  | write (key : DBKey)
  /-- `ReplicateSet` and `ReplicateDelete`. -/
  | replicate (key : DBKey) (byRhs : Bool)
  /-- An operation of a handler on the database. -/
  | storage (op : Storage.Operation)
  /-- A scan comes to a record. -/
  | visit (i : ℕ) (kv : Bytes × Bytes)
  /-- A scan is through. -/
  | finish (i : ℕ)

def look {α : Type} (s : Lookups) (x : Walked α) : Lookups := { s with walks := s.walks ++ x.walks }

def setStorage (s : Lookups) (st : Storage) : Lookups :=
  { s with spaces := { s.spaces with server := { s.spaces.server with storage := st } } }

/-- The scan that a task begins when the pool runs it. -/
def begins (self : Address) (s : Lookups) : Spaces.Act → List Scan
  | .run k => (s.spaces.tasks[k]?.bind (beginScan self s.spaces.server)).toList
  | _ => []

def step (hash : Bytes → UInt64) (self : Address) (s : Lookups) : Act → Option Lookups
  | .spaces a =>
    (s.spaces.step hash a).map fun t => { s with spaces := t, scans := s.scans ++ s.begins self a }
  | .get key => some (s.look (Walked.checkReplicatorAssign self s.spaces.server.rhs key.hash))
  | .write key =>
    some (s.look (Walked.calcReplicators self s.spaces.server.whs s.spaces.server.rhs key.hash))
  | .replicate key byRhs =>
    some (s.look (Walked.checkReplicatorAssign self
      (if byRhs then s.spaces.server.rhs else s.spaces.server.whs) key.hash))
  | .storage op => some (s.setStorage (s.spaces.server.storage.call op))
  | .visit i kv => do
    let scan ← s.scans[i]?
    if kv ∈ s.spaces.server.storage.live then
      let r := scan.visit self (Storage.hashOf kv.1)
      let s := s.look r
      if r.value.2 then
        some (s.setStorage { s.spaces.server.storage with
          db := s.spaces.server.storage.db.erase kv.1 })
      else some s
    else none
  | .finish i => if i < s.scans.length then some { s with scans := s.scans.eraseIdx i } else none

end Lookups

end Kumofs
