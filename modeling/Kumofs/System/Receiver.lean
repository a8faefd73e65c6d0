import Kumofs.Lib.Run
import Kumofs.Server.Replace
import Kumofs.Server.Store

/-!
# A replica on a disk that fails

A server that gets replications and the streams of replaces, that coordinates `Set`s and `Delete`s
of its own and scans its database for replaces, in any order between each other, while a call of its
database may fail and then leaves the record as it is. A stream is acknowledged as a whole, by the
nil that answers its last message; what becomes of its records when they are written is not looked
at. A `ReplicateSet` is answered after its `update`, and others may come in between. The replies to
the server's own replications touch neither its records nor what it acknowledges.
-/

namespace Kumofs

namespace Storage

/-- `update` when the call of the database may fail. -/
def updateOn (fails : Bool) (s : Storage) (rawKey rawVal : Bytes) : Storage × Bool :=
  if fails then (s, false) else s.update rawKey rawVal

/-- `remove`, which gives up when the `update` of its tombstone returns false. -/
def removeOn (fails : Bool) (s : Storage) (rawKey : Bytes) (ct : ClockTime) : Storage × Bool :=
  if fails then (s, false) else s.remove rawKey ct

end Storage

namespace Server

/-- The handlers of `ReplicateSet` and `ReplicateDelete` on such a database. -/
def replicateOn (fails : Bool) (self : Address) (key : DBKey) (s : State) :
    Replicate → State × Except String Bool
  | .set adjustClock byRhs val =>
    match checkReplicate self key byRhs s with
    | .error e => (s, .error e)
    | .ok () =>
      let r := s.storage.updateOn fails key.raw val.raw
      ({ s with clock := s.clock.clockUpdate adjustClock, storage := r.1 }, .ok r.2)
  | .delete adjustClock byRhs ct =>
    match checkReplicate self key byRhs s with
    | .error e => (s, .error e)
    | .ok () =>
      let r := s.storage.removeOn fails key.raw ct
      ({ s with clock := s.clock.clockUpdate adjustClock, storage := r.1 }, .ok r.2)

/-- They are the handlers there are where no call fails. -/
theorem replicateOn_false (self : Address) (key : DBKey) (s : State) (m : Replicate) :
    replicateOn false self key s m = replicate self key s m := by
  cases m <;> rfl

namespace Handler

/-- The rest of `Delete` where `remove` has returned false. -/
def notDeleted (h : Handler) : Handler :=
  if h.reps.rrepto = [] then { h.respond (.bool false) with pc := .done }
  else ({ h with reps := { h.reps with wrepto := [] } }.prepare).respondIfAlone (.bool true)

/-- The next step of a handler, where the call of the database that it makes fails: `cas` and
`remove` return false, and `set` throws. -/
def stepFailing (key : DBKey) (s : State) (h : Handler) : State × Handler :=
  match h.pc, h.op with
  | .apply, .cas _ => (s, { h.respond (.bool false) with pc := .done })
  | .apply, .delete _ => (s, h.notDeleted)
  | .send, .set _ _ =>
    match h.calls.findIdx? (·.status = .unsent) with
    | none => (s, { h.respond (.error "set failed") with pc := .done })
    | some _ => ((h.step key s).1, (h.step key s).2.1)
  | _, _ => ((h.step key s).1, (h.step key s).2.1)

def stepOn (fails : Bool) (key : DBKey) (s : State) (h : Handler) : State × Handler :=
  if fails then h.stepFailing key s else ((h.step key s).1, (h.step key s).2.1)

end Handler

/-! ## Scans -/

/-- What a scan has decided to delete: garbage, if it is still older than the limit, or the record
of a key that is not for this server. -/
inductive Doomed
  | garbage (rawKey : Bytes) (limit : ClockTime)
  | unassigned (rawKey : Bytes)
  deriving DecidableEq

/-- `iterator_del` and `iterator_del_force`. -/
def Doomed.run (s : Storage) : Doomed → Storage
  | .garbage rawKey limit => { s with db := s.db.del rawKey (Storage.updateproc limit) }
  | .unassigned rawKey => { s with db := s.db.erase rawKey }

/-- `for_each_collect` with `for_each_replace_delete` of a hash space, or with a callback that
deletes nothing. -/
def doom (self : Address) (dst : Option HashSpace) (limit : ClockTime) (rawKey rawVal : Bytes) :
    Option Doomed :=
  if Storage.isGarbage limit rawVal then some (.garbage rawKey limit)
  else if valueMetaSize ≤ rawVal.length ∧
      dst.any (fun hs => !testReplicatorAssign hs (Storage.hashOf rawKey) self) then
    some (.unassigned rawKey)
  else none

end Server

/-- A key that was acknowledged, the clocktime it was sent with, and the entry at that moment. -/
structure Ack where
  ct : ClockTime
  entry : Option Bytes
  deriving DecidableEq

structure Receiver where
  srv : Server.State
  /-- The server's own `Set`s and `Delete`s. -/
  handlers : List (DBKey × Server.Handler)
  /-- The `ReplicateSet`s that have called `update` and are not answered yet. -/
  replies : List (DBKey × DBValue)
  /-- The records taken from each stream that is not acknowledged yet. -/
  streams : List (List (DBKey × DBValue))
  /-- The hash spaces that the `replace_delete`s scan with. -/
  dsts : List HashSpace
  /-- What the scan under way is about to delete. -/
  doomed : Option Server.Doomed
  /-- What was acknowledged. No code reads it. -/
  acks : List Ack

namespace Receiver

inductive Act
  | replicate (key : DBKey) (m : Server.Replicate) (fails : Bool)
  /-- A `ReplicateSet` is answered. -/
  | answer (i : ℕ)
  /-- A stream connects. -/
  | connect
  /-- `submit_message` of a record on stream `i`. -/
  | record (i : ℕ) (key : DBKey) (val : DBValue) (fails : Bool)
  /-- `submit_message` of nil. -/
  | nil (i : ℕ)
  /-- A `Set` or `Delete` comes to this server. -/
  | request (key : DBKey) (op : Server.Op)
  /-- The next step of such a handler. -/
  | handle (i : ℕ) (fails : Bool)
  /-- The beginning of `replace_delete`. -/
  | replaceDelete
  /-- A scan reads the record of a key, that of `replace_delete` with `dsts[k]`, or one that only
  copies. -/
  | read (rawKey : Bytes) (now : ClockTime) (k : Option ℕ)
  /-- The scan deletes what it has decided to. -/
  | delete
  | hashSpaces (whs rhs : HashSpace)
  | clockUpdate (c : UInt32)
  | time (t : UInt32)

def init (srv : Server.State) : Receiver := ⟨srv, [], [], [], [], none, []⟩

/-- The acknowledgement of a key that was sent with a value. -/
def ackOf (srv : Server.State) (kv : DBKey × DBValue) : Ack :=
  ⟨kv.2.clocktime, srv.storage.db.lookup kv.1.raw⟩

/-- A `ReplicateSet` is to be answered without an error. -/
def answering (key : DBKey) : Server.Replicate → Except String Bool → List (DBKey × DBValue)
  | .set _ _ val, .ok _ => [(key, val)]
  | _, _ => []

def setStorage (s : Receiver) (x : Storage) : Receiver :=
  { s with srv := { s.srv with storage := x } }

def setClock (s : Receiver) (c : ClockLogic) : Receiver :=
  { s with srv := { s.srv with clock := c } }

variable (self : Address)

def step (s : Receiver) : Act → Option Receiver
  | .replicate key m fails =>
    let r := Server.replicateOn fails self key s.srv m
    some { s with srv := r.1, replies := s.replies ++ answering key m r.2 }
  | .answer i => s.replies[i]?.map fun kv =>
    { s with replies := s.replies.eraseIdx i, acks := s.acks ++ [ackOf s.srv kv] }
  | .connect => some { s with streams := s.streams ++ [[]] }
  | .record i key val fails => s.streams[i]?.map fun records =>
    { s.setStorage (s.srv.storage.updateOn fails key.raw val.raw).1 with
      streams := s.streams.set i ((key, val) :: records) }
  | .nil i => s.streams[i]?.map fun records =>
    { s with
      streams := s.streams.eraseIdx i
      acks := s.acks ++ records.map (ackOf s.srv) }
  | .request key op => some { s with handlers := s.handlers ++ [(key, .init self op)] }
  | .handle i fails => s.handlers[i]?.map fun kh =>
    let r := kh.2.stepOn fails kh.1 s.srv
    { s with srv := r.1, handlers := s.handlers.set i (kh.1, r.2) }
  | .replaceDelete =>
    some
      { s with
        srv := { s.srv with rhs := s.srv.whs }
        dsts := if s.srv.whs.empty then s.dsts else s.dsts ++ [s.srv.whs] }
  | .read rawKey now k =>
    if s.doomed.isSome then none
    else (s.srv.storage.db.lookup rawKey).map fun rawVal =>
      { s with
        doomed := Server.doom self (k.bind (s.dsts[·]?)) (s.srv.storage.clocktimeLimit now) rawKey
          rawVal }
  | .delete => s.doomed.map fun d => { s.setStorage (d.run s.srv.storage) with doomed := none }
  | .hashSpaces whs rhs => some { s with srv := { s.srv with whs := whs, rhs := rhs } }
  | .clockUpdate c => some (s.setClock (s.srv.clock.clockUpdate c))
  | .time t => some (s.setClock (s.srv.clock.clockUpdateTime t))

/-- Every key that was acknowledged had an entry that was not older than what was sent. -/
def Honest (s : Receiver) : Prop :=
  ∀ a ∈ s.acks, ∃ e, a.entry = some e ∧ ¬ Storage.clocktimeOf e < a.ct

end Receiver

end Kumofs
