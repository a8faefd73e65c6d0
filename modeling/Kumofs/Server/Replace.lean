import Kumofs.Storage

/-!
# What a server copies and deletes in a replace

`logic/server/mod_replace.cc`: each server goes over its own database and decides from the two
hash spaces which of its records it has to offer to which servers, and later which it no longer
has to keep. The records it offers are listed in the order of the scan; the streams they travel in
are those of `Kumofs.Server.Copier`.
-/

namespace Kumofs.Server

/-- `test_replicator_assign`. -/
def testReplicatorAssign (hs : HashSpace) (h : UInt64) (target : Address) : Bool :=
  (hs.eachAssign h).any fun r => r.active && r.addr == target

/-- `fault_nodes`: what is active in the source and not in the destination. The source sorts it for
`std::binary_search`. -/
def faultNodes (src dst : HashSpace) : List Address :=
  src.getActiveNodes.filter (· ∉ dst.getActiveNodes)

/-- `current_owners` of a hash. -/
def currentOwners (src : HashSpace) (faults : List Address) (h : UInt64) : List Address :=
  (src.activeAssigned h).filter (· ∉ faults)

/-- `newbies` of a hash. -/
def newbies (src dst : HashSpace) (h : UInt64) : List Address :=
  (dst.activeAssigned h).filter (· ∉ src.activeAssigned h)

/-- Whom `for_each_replace_copy` offers a record: the first owner offers it to the newbies. -/
def copyTargets (self : Address) (src dst : HashSpace) (faults : List Address) (h : UInt64) :
    List Address :=
  if (currentOwners src faults h).head? = some self then newbies src dst h else []

/-- A record offered to a server. -/
structure Offer where
  dest : Address
  key : Bytes
  val : Bytes
  deriving DecidableEq, Repr

/-- `for_each_replace_copy` over the records of a scan. -/
def forEachReplaceCopy (self : Address) (src dst : HashSpace) (faults : List Address)
    (records : List (Bytes × Bytes)) : List Offer :=
  records.flatMap fun kv =>
    (copyTargets self src dst faults (Storage.hashOf kv.1)).map (⟨·, kv.1, kv.2⟩)

/-- `for_each_full_replace_copy`. -/
def forEachFullReplaceCopy (dst : HashSpace) (records : List (Bytes × Bytes)) : List Offer :=
  records.flatMap fun kv => (dst.activeAssigned (Storage.hashOf kv.1)).map (⟨·, kv.1, kv.2⟩)

/-- `goto skip_replace`. -/
def skipsReplace (self : Address) (src dst : HashSpace) : Bool :=
  src.getActiveNodes.isEmpty || dst.getActiveNodes.isEmpty || self ∈ faultNodes src dst

/-- The scan of `replace_copy`. -/
def replaceCopy (self : Address) (src dst : HashSpace) (now : ClockTime) (s : Storage) :
    Storage × List Offer :=
  if skipsReplace self src dst then (s, [])
  else (s.sweep now, forEachReplaceCopy self src dst (faultNodes src dst) s.live)

/-- The scan of `full_replace_copy`. -/
def fullReplaceCopy (dst : HashSpace) (now : ClockTime) (s : Storage) : Storage × List Offer :=
  (s.sweep now, forEachFullReplaceCopy dst s.live)

/-- `stream_handler::submit_message` of a record. -/
def submitMessage (s : Storage) (o : Offer) : Storage := (s.update o.key o.val).1

/-- The scan of `replace_delete` with `for_each_replace_delete`. -/
def replaceDelete (self : Address) (hs : HashSpace) (now : ClockTime) (s : Storage) : Storage :=
  if hs.empty then s
  else
    { s.sweep now with
      db := (s.live.filter fun kv => !testReplicatorAssign hs (Storage.hashOf kv.1) self).foldl
        (fun db kv => db.erase kv.1) (s.sweep now).db }

end Kumofs.Server
