import Kumofs.Lib.Run
import Kumofs.Storage

/-!
# The calls of a storage

What is called on the storage of a server, one call after the other.
-/

namespace Kumofs.Storage

inductive Operation
  | set (key : DBKey) (val : DBValue)
  | update (key : DBKey) (val : DBValue)
  | cas (key : DBKey) (val : DBValue) (compare : ClockTime)
  | remove (key : DBKey) (ct : ClockTime)
  /-- With a callback that leaves the table alone. -/
  | forEach (now : ClockTime)

/-- The clocktime a call is made with. -/
def Operation.clocktime : Operation → ClockTime
  | .set _ val => val.clocktime
  | .update _ val => val.clocktime
  | .cas _ val _ => val.clocktime
  | .remove _ ct => ct
  | .forEach now => now

/-- The storage after a call. -/
def call (s : Storage) : Operation → Storage
  | .set key val => s.set key.raw val.raw
  | .update key val => (s.update key.raw val.raw).1
  | .cas key val compare => (s.cas key.raw val.raw compare).1
  | .remove key ct => (s.remove key.raw ct).1
  | .forEach now => s.sweep now

/-- A storage and the time of the last call. -/
structure Timed where
  storage : Storage
  time : UInt32

/-- The times of calls do not decrease. -/
def Timed.step (s : Timed) (c : Operation) : Option Timed :=
  if s.time ≤ c.clocktime.time then some ⟨s.storage.call c, c.clocktime.time⟩ else none

/-- `ReplicateSet` and `ReplicateDelete` as far as the storage goes. -/
inductive Message
  | set (key : DBKey) (val : DBValue)
  | delete (key : DBKey) (ct : ClockTime)
  deriving DecidableEq

namespace Message

def key : Message → DBKey
  | .set key _ => key
  | .delete key _ => key

def clocktime : Message → ClockTime
  | .set _ val => val.clocktime
  | .delete _ ct => ct

/-- What the message leaves in the table. -/
def raw : Message → Bytes
  | .set _ val => val.raw
  | .delete _ ct => clocktimeTo ct

/-- What is read after it. -/
def value : Message → Option Bytes
  | .set _ val => some val.raw
  | .delete _ _ => none

def call : Message → Operation
  | .set key val => .update key val
  | .delete key ct => .remove key ct

end Message

/-- The storage after the messages, in this order. -/
def receive (s : Storage) (ms : List Message) : Storage :=
  ms.foldl (fun s m => s.call m.call) s

end Kumofs.Storage
