import Kumofs.System.Storage

/-!
# The queue of tombstones

`buffer_queue` of `storage/buffer_queue.h`, which keeps the total of its sizes apart from its
entries, and `Storage::remove` of `storage/storage.cc` over it. The entries are in memory, so that
their total does not exceed a `size_t`.
-/

namespace Kumofs

/-- `entry`; its bytes are the clocktime of a tombstone and, behind it, the key. -/
structure BufferQueue.Entry where
  data : ClockTime × Bytes
  size : ℕ
  deriving DecidableEq

structure BufferQueue where
  totalSize : ℕ
  queue : List BufferQueue.Entry
  deriving DecidableEq

namespace BufferQueue

def init : BufferQueue := ⟨0, []⟩

variable (q : BufferQueue)

def push (e : Entry) : BufferQueue := ⟨q.totalSize + e.size, q.queue ++ [e]⟩

def front : Option Entry := q.queue.head?

def pop : BufferQueue :=
  match q.queue with
  | [] => q
  | e :: es => ⟨q.totalSize - e.size, es⟩

end BufferQueue

/-- `scoped_clock_key`. -/
def clockKey (rawKey : Bytes) (ct : ClockTime) : BufferQueue.Entry :=
  ⟨(ct, rawKey), rawKey.length + 8⟩

/-- `Storage`, with its queue as it is kept. -/
structure GarbageStorage where
  db : Db
  garbage : BufferQueue
  garbageMinTime : UInt32
  garbageMaxTime : UInt32
  garbageMemLimit : ℕ

namespace GarbageStorage

open Storage (updateproc updateprocEq clocktimeTo)

variable (s : GarbageStorage) (update : ClockTime)

/-- `m_op.del` of a tombstone. -/
def del (e : BufferQueue.Entry) : GarbageStorage :=
  { s with db := s.db.del e.data.2 (updateprocEq e.data.1) }

def pop : GarbageStorage := { s with garbage := s.garbage.pop }

/-- A round of the loop of `remove`, unless it ends. -/
def round : Option GarbageStorage :=
  match s.garbage.front with
  | none => none
  | some e =>
    if s.garbage.totalSize > s.garbageMemLimit then
      if e.data.1 < update.beforeSec s.garbageMinTime then some (s.del e).pop else some s.pop
    else if e.data.1 < update.beforeSec s.garbageMaxTime then some (s.del e).pop
    else none

/-- So many rounds of the loop. -/
def rounds : ℕ → GarbageStorage → Option GarbageStorage
  | 0, s => some s
  | n + 1, s => (s.round update).bind (rounds n)

theorem length_round {s t : GarbageStorage} (h : s.round update = some t) :
    t.garbage.queue.length < s.garbage.queue.length := by
  unfold round BufferQueue.front at h
  cases hq : s.garbage.queue with
  | nil => simp [hq] at h
  | cons e es =>
    simp only [hq, List.head?_cons] at h
    split_ifs at h <;> cases h <;> simp [pop, del, BufferQueue.pop, hq]

/-- The loop of `remove`. -/
def drain (s : GarbageStorage) : GarbageStorage :=
  match _h : s.round update with
  | none => s
  | some t => drain t
  termination_by s.garbage.queue.length
  decreasing_by exact length_round update _h

/-- The tombstone is stored, and its key is pushed. -/
def push (rawKey : Bytes) : GarbageStorage :=
  { s with
    db := (s.db.update rawKey (clocktimeTo update) (updateproc update)).1
    garbage := s.garbage.push (clockKey rawKey update) }

/-- `Storage::remove`; true if the tombstone is stored. -/
def remove (rawKey : Bytes) : GarbageStorage × Bool :=
  let r := s.db.update rawKey (clocktimeTo update) (updateproc update)
  if r.2 then (drain update (s.push update rawKey), true) else ({ s with db := r.1 }, false)

/-- The storage, whatever the queue keeps besides its entries. -/
def toStorage : Storage :=
  ⟨s.db, s.garbage.queue.map (·.data), s.garbageMinTime, s.garbageMaxTime, s.garbageMemLimit⟩

/-- The storage after a call. -/
def call : Storage.Operation → GarbageStorage
  | .remove key ct => (s.remove ct key.raw).1
  | op => { s with db := (s.toStorage.call op).db }

/-- The storage after the calls, in this order. -/
def calls (ops : List Storage.Operation) : GarbageStorage := ops.foldl call s

/-- The tombstone that a call stores. -/
def stored : Storage.Operation → List BufferQueue.Entry
  | .remove key ct => if (s.remove ct key.raw).2 then [clockKey key.raw ct] else []
  | _ => []

/-- The tombstones that the calls store, in this order. -/
def tombstones (s : GarbageStorage) : List Storage.Operation → List BufferQueue.Entry
  | [] => []
  | op :: ops => s.stored op ++ tombstones (s.call op) ops

/-- A storage that is opened. -/
def opened (db : Db) (minTime maxTime : UInt32) (memLimit : ℕ) : GarbageStorage :=
  ⟨db, .init, minTime, maxTime, memLimit⟩

/-- What a call of `remove` leaves of the queue, where these tombstones were stored up to it. -/
structure Accounted (stored : Bool) (tombstones : List BufferQueue.Entry) : Prop where
  totalSize : s.garbage.totalSize = (s.garbage.queue.map (·.size)).sum
  limit : s.garbage.totalSize ≤ s.garbageMemLimit ∨ s.garbage.queue = []
  inOrder : s.garbage.queue <:+ tombstones
  front : stored = true → ∀ e ∈ s.garbage.front, ¬ e.data.1 < update.beforeSec s.garbageMaxTime

end GarbageStorage

end Kumofs
