import Kumofs.Storage

/-!
# `kumomergedb`

`command/mergedb.cc`: the records of some databases are put into another one, as far as they are
newer than what it has. All of them are opened with no limits on their garbage, and scanned at
`ClockTime(0)`.
-/

namespace Kumofs

/-- The database to merge into, with the numbers that are printed. -/
structure Merging where
  dst : Storage
  total : UInt64
  merged : UInt64

namespace Merging

/-- `new Storage(path, 0, 0, 0)`. -/
def openStorage (db : Db) : Storage := ⟨db, [], 0, 0, 0⟩

/-- `for_each_update`. -/
def forEachUpdate (m : Merging) (kv : Bytes × Bytes) : Merging :=
  let m := { m with total := m.total + 1 }
  if kv.1.length < keyMetaSize then m
  else if kv.2.length < valueMetaSize then m
  else
    let r := m.dst.update kv.1 kv.2
    if r.2 then { m with dst := r.1, merged := m.merged + 1 } else { m with dst := r.1 }

/-- `for_each` of a source. -/
def forEach (m : Merging) (src : Storage) : Merging := src.live.foldl forEachUpdate m

/-- The loop over the sources. -/
def forEachAll (dst : Db) (srcs : List Db) : Merging :=
  (srcs.map openStorage).foldl forEach ⟨openStorage dst, 0, 0⟩

/-- `main`, for the arguments after the name of the program: there is a usage for less than
three. -/
def main (dst : Db) (srcs : List Db) : Option Merging :=
  let argc := srcs.length + 2
  if argc ≤ 3 then none
  else some (forEachAll dst srcs)

/-- What the databases have for a key, deleted or not. -/
def entries (srcs : List Db) (key : DBKey) : Set Bytes :=
  {val | ∃ db ∈ srcs, db.lookup key.raw = some val}

/-- The values that the databases have for a key. -/
def values (srcs : List Db) (key : DBKey) : Set Bytes :=
  {val | val ∈ entries srcs key ∧ valueMetaSize ≤ val.length}

end Merging

end Kumofs
