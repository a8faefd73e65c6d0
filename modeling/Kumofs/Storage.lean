import Kumofs.Hash
import Mathlib.Data.List.AList

/-!
# The storage

`storage/storage.h`, `storage/storage.cc` and the records of `logic/msgtype.h`, over a table of
raw keys and raw values as the hash database of `storage/tchdb.cc` keeps it. A raw key starts with
the hash of the key, a raw value with its clocktime; a value of the clocktime alone is what a
deleted key leaves behind, its tombstone. Tombstones are collected from a queue by later deletes,
and by scans of the table.
-/

namespace Kumofs

/-- `KEY_META_SIZE`: the hash. -/
def keyMetaSize : ℕ := 8

/-- `VALUE_CLOCKTIME_SIZE`. -/
def valueClocktimeSize : ℕ := 8

/-- `VALUE_META_SIZE`: the clocktime and 16 bits of meta data. -/
def valueMetaSize : ℕ := valueClocktimeSize + 2

/-- A number from its bytes, the high one first. -/
def ofBe : Bytes → ℕ := List.foldl (fun n b => n * 256 + b.toNat) 0

/-- `kumo_be64`: the eight bytes of a number, the high one first. -/
def toBe64 (x : UInt64) : Bytes :=
  [x.toNat / 256 ^ 7, x.toNat / 256 ^ 6, x.toNat / 256 ^ 5, x.toNat / 256 ^ 4, x.toNat / 256 ^ 3,
    x.toNat / 256 ^ 2, x.toNat / 256, x.toNat].map UInt8.ofNat

namespace Storage

/-- `clocktime_of`. -/
def clocktimeOf (rawVal : Bytes) : ClockTime :=
  ⟨UInt64.ofNat (ofBe (rawVal.take valueClocktimeSize))⟩

/-- `clocktime_to`. -/
def clocktimeTo (ct : ClockTime) : Bytes := toBe64 ct.m

/-- `hash_of`. -/
def hashOf (rawKey : Bytes) : UInt64 := UInt64.ofNat (ofBe (rawKey.take keyMetaSize))

end Storage

/-- `DBKey` as it is received: one without its hash is a `type_error`. -/
structure DBKey where
  raw : Bytes
  meta_le : keyMetaSize ≤ raw.length
  deriving DecidableEq

/-- `DBValue` as it is received. -/
structure DBValue where
  raw : Bytes
  meta_le : valueMetaSize ≤ raw.length
  deriving DecidableEq

def DBKey.hash (k : DBKey) : UInt64 := Storage.hashOf k.raw

def DBValue.clocktime (v : DBValue) : ClockTime := Storage.clocktimeOf v.raw

theorem length_clocktimeTo (ct : ClockTime) :
    (Storage.clocktimeTo ct).length = valueClocktimeSize := rfl

/-- `raw_set_clocktime`. -/
def DBValue.setClocktime (v : DBValue) (ct : ClockTime) : DBValue where
  raw := Storage.clocktimeTo ct ++ v.raw.drop valueClocktimeSize
  meta_le := by
    have h := v.meta_le
    rw [List.length_append, length_clocktimeTo, List.length_drop]
    unfold valueMetaSize at h ⊢
    omega

/-! ## The table -/

/-- The hash database. -/
abbrev Db := AList fun _ : Bytes => Bytes

namespace Db

/-- `tchdbputproc`: `proc` decides on the value there is; where there is none the new one is put. -/
def update (db : Db) (key val : Bytes) (proc : Bytes → Bool) : Db × Bool :=
  match db.lookup key with
  | none => (db.insert key val, true)
  | some old => if proc old then (db.insert key val, true) else (db, false)

/-- `del`. -/
def del (db : Db) (key : Bytes) (proc : Bytes → Bool) : Db :=
  match db.lookup key with
  | none => db
  | some old => if proc old then db.erase key else db

end Db

/-! ## The storage -/

structure Storage where
  db : Db
  /-- `m_garbage`: the clock keys, that is a key behind its clocktime, the oldest push first. -/
  garbage : List (ClockTime × Bytes)
  garbageMinTime : UInt32
  garbageMaxTime : UInt32
  garbageMemLimit : ℕ

namespace Storage

/-- `storage_updateproc`: the old value is older. -/
def updateproc (update : ClockTime) (old : Bytes) : Bool :=
  if old.length < valueClocktimeSize then true else clocktimeOf old < update

/-- `storage_updateproc_eq`. -/
def updateprocEq (update : ClockTime) (old : Bytes) : Bool :=
  if old.length < valueClocktimeSize then true else clocktimeOf old ≤ update

/-- `storage_casproc`. -/
def casproc (compare : ClockTime) (old : Bytes) : Bool :=
  if old.length < valueClocktimeSize then false else compare = clocktimeOf old

/-- The value of a key that is not deleted. -/
def get (s : Storage) (rawKey : Bytes) : Option Bytes :=
  (s.db.lookup rawKey).filter (valueMetaSize ≤ ·.length)

def set (s : Storage) (rawKey rawVal : Bytes) : Storage :=
  { s with db := s.db.insert rawKey rawVal }

def update (s : Storage) (rawKey rawVal : Bytes) : Storage × Bool :=
  let r := s.db.update rawKey rawVal (updateproc (clocktimeOf rawVal))
  ({ s with db := r.1 }, r.2)

def cas (s : Storage) (rawKey rawVal : Bytes) (compare : ClockTime) : Storage × Bool :=
  let r := s.db.update rawKey rawVal (casproc compare)
  ({ s with db := r.1 }, r.2)

/-- `buffer_queue::total_size` of a queue of clock keys. -/
def totalSize (garbage : List (ClockTime × Bytes)) : ℕ :=
  (garbage.map fun g => g.2.length + 8).sum

/-- The loop of `remove` that takes old tombstones from the front of the queue. -/
def drain (s : Storage) (update : ClockTime) : Db → List (ClockTime × Bytes) → Storage
  | db, [] => { s with db := db, garbage := [] }
  | db, g :: gs =>
    if s.garbageMemLimit < totalSize (g :: gs) then
      if g.1 < update.beforeSec s.garbageMinTime then
        drain s update (db.del g.2 (updateprocEq g.1)) gs
      else drain s update db gs
    else if g.1 < update.beforeSec s.garbageMaxTime then
      drain s update (db.del g.2 (updateprocEq g.1)) gs
    else { s with db := db, garbage := g :: gs }

def remove (s : Storage) (rawKey : Bytes) (update : ClockTime) : Storage × Bool :=
  let r := s.db.update rawKey (clocktimeTo update) (updateproc update)
  if r.2 then (drain s update r.1 (s.garbage ++ [(update, rawKey)]), true)
  else ({ s with db := r.1 }, false)

/-! ## Scans -/

/-- `clocktime_limit` of a scan at time `now`. -/
def clocktimeLimit (s : Storage) (now : ClockTime) : ClockTime := now.beforeSec s.garbageMaxTime

/-- A record that `for_each_collect` takes for garbage. -/
def isGarbage (limit : ClockTime) (rawVal : Bytes) : Bool :=
  rawVal.length < valueMetaSize && limit.m ≠ 0 &&
    (rawVal.length < valueClocktimeSize || clocktimeOf rawVal < limit)

/-- What a scan leaves of the table but for what its callback does: old tombstones go. -/
def sweep (s : Storage) (now : ClockTime) : Storage :=
  { s with
    db := (s.db.entries.filter fun e => isGarbage (s.clocktimeLimit now) e.2).foldl
      (fun db e => db.erase e.1) s.db }

/-- The records that a scan hands to its callback. -/
def live (s : Storage) : List (Bytes × Bytes) :=
  (s.db.entries.filter fun e => valueMetaSize ≤ e.2.length).map fun e => (e.1, e.2)

end Storage

end Kumofs
