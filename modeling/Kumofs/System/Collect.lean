import Kumofs.Lib.Run
import Kumofs.Storage

/-!
# Collecting garbage between writes

The calls of a storage from several threads, cut at each call of the database. A `remove` writes
its tombstone, waits for the lock of the queue, pushes and then takes tombstones from the front of
the queue one by one; a scan reads a record, decides, and deletes it later. Between any two of
these others write. One thread holds the lock of the queue, and one scans.
-/

namespace Kumofs

/-- What a scan has decided to delete: the value it read, and its limit. -/
structure Decision where
  key : Bytes
  seen : Bytes
  limit : ClockTime
  deriving DecidableEq

/-- A record that was deleted, and the clocktime of the tombstone that was meant. -/
structure Deletion where
  record : Bytes
  tombstone : ClockTime
  deriving DecidableEq

namespace Storage

/-- What `del` takes from the table. -/
def deleted (s : Storage) (key : Bytes) (proc : Bytes → Bool) (tombstone : ClockTime) :
    List Deletion :=
  ((s.db.lookup key).filter proc).toList.map (⟨·, tombstone⟩)

/-- One round of the loop of `remove`, unless the loop ends. -/
def drainOne (s : Storage) (update : ClockTime) : Option (Storage × List Deletion) :=
  match s.garbage with
  | [] => none
  | g :: gs =>
    let collected :=
      ({ s with db := s.db.del g.2 (updateprocEq g.1), garbage := gs },
        s.deleted g.2 (updateprocEq g.1) g.1)
    if s.garbageMemLimit < totalSize (g :: gs) then
      if g.1 < update.beforeSec s.garbageMinTime then some collected
      else some ({ s with garbage := gs }, [])
    else if g.1 < update.beforeSec s.garbageMaxTime then some collected
    else none

end Storage

structure Collecting where
  storage : Storage
  /-- The removes that wait for the lock of the queue. -/
  waiting : List (ClockTime × Bytes)
  /-- The clocktime of the remove that holds it. -/
  draining : Option ClockTime
  scan : Option Decision
  /-- What was collected. No code reads it. -/
  deletions : List Deletion

namespace Collecting

inductive Act
  | set (key : DBKey) (val : DBValue)
  | update (key : DBKey) (val : DBValue)
  | cas (key : DBKey) (val : DBValue) (compare : ClockTime)
  | remove (key : DBKey) (ct : ClockTime)
  /-- Remove `i` of those waiting gets the lock. -/
  | push (i : ℕ)
  | drain
  /-- The scan at time `now` reads the record of a key. -/
  | read (key : Bytes) (now : ClockTime)
  /-- `iterator_del`. -/
  | collect

def init (s : Storage) : Collecting := ⟨s, [], none, none, []⟩

def step (s : Collecting) : Act → Option Collecting
  | .set key val => some { s with storage := s.storage.set key.raw val.raw }
  | .update key val => some { s with storage := (s.storage.update key.raw val.raw).1 }
  | .cas key val compare => some { s with storage := (s.storage.cas key.raw val.raw compare).1 }
  | .remove key ct =>
    let r := s.storage.update key.raw (Storage.clocktimeTo ct)
    some
      { s with
        storage := r.1
        waiting := if r.2 then s.waiting ++ [(ct, key.raw)] else s.waiting }
  | .push i =>
    if s.draining.isSome then none
    else s.waiting[i]?.map fun g =>
      { s with
        storage := { s.storage with garbage := s.storage.garbage ++ [g] }
        waiting := s.waiting.eraseIdx i
        draining := some g.1 }
  | .drain => s.draining.map fun u =>
    match s.storage.drainOne u with
    | none => { s with draining := none }
    | some r => { s with storage := r.1, deletions := s.deletions ++ r.2 }
  | .read key now =>
    if s.scan.isSome then none
    else (s.storage.db.lookup key).map fun val =>
      let limit := s.storage.clocktimeLimit now
      { s with scan := if Storage.isGarbage limit val then some ⟨key, val, limit⟩ else none }
  | .collect => s.scan.map fun d =>
    { s with
      storage :=
        { s.storage with db := s.storage.db.del d.key (Storage.updateproc d.limit) }
      scan := none
      deletions := s.deletions ++
        s.storage.deleted d.key (Storage.updateproc d.limit) (Storage.clocktimeOf d.seen) }

/-- No live value was collected that is newer than the tombstone that was meant. -/
def SparesNewer (s : Collecting) : Prop :=
  ∀ d ∈ s.deletions,
    ¬ (valueMetaSize ≤ d.record.length ∧ d.tombstone < Storage.clocktimeOf d.record)

end Collecting

end Kumofs
