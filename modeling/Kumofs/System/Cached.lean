import Kumofs.Gateway.Cache
import Kumofs.System.Storage

/-!
# Reading through the cache

One server whose storage is called by whatever request or replication, and the `Get`s of a gateway
for it. A key that is cached is asked for with `GetIfModified`, whose handler calls the storage
twice; the storage may change in between, and the cache while the request is out.

What was put into the storage and what the server has replied is recorded, and with each reply what
a plain `Get` would have replied at that moment.
-/

namespace Kumofs

/-- What a call puts into the table. -/
def Storage.puts (s : Storage) : Storage.Operation → Option (Bytes × Bytes)
  | .set key val => some (key.raw, val.raw)
  | .update key val => if (s.update key.raw val.raw).2 then some (key.raw, val.raw) else none
  | .cas key val compare =>
    if (s.cas key.raw val.raw compare).2 then some (key.raw, val.raw) else none
  | .remove key ct => if (s.remove key.raw ct).2 then some (key.raw, clocktimeTo ct) else none
  | .forEach _ => none

namespace Gateway

/-- Where a request is: on its way, past `cache_is_valid`, or answered. -/
inductive Stage
  | sent
  | reading
  | answered (res plain : Option Reply)
  deriving DecidableEq

/-- A `Get` of the gateway. -/
structure Fetch where
  key : DBKey
  /-- What the cache had for the key. -/
  cached : Option DBValue
  /-- `m_limit` of the retry object. -/
  retried : UInt16
  stage : Stage
  deriving DecidableEq

/-- The callback: `Get` or `GetIfModified`. -/
def Fetch.onReply (cfg : Config) (f : Fetch) (res : Option Reply) : UInt16 × Then :=
  match f.cached with
  | none => resGet cfg f.retried res
  | some cached => resGetIfModified cfg cached f.retried res

structure Caching where
  srv : Server.State
  cache : Cache
  fetches : List Fetch
  /-- The replies of the server. -/
  replied : List (DBKey × Option Reply)
  /-- What was put into the storage, the last first. -/
  stored : List (Bytes × Bytes)

namespace Caching

/-- A server in any state, and a gateway with an empty cache or none. -/
def init (srv : Server.State) (cache : Bool) : Caching :=
  ⟨srv, if cache then some ∅ else none, [], [], srv.storage.db.entries.map fun e => (e.1, e.2)⟩

inductive Act
  | call (c : Storage.Operation)
  /-- The hash spaces or the clock of the server change. -/
  | change (whs rhs : HashSpace) (clock : ClockLogic)
  | submit (key : DBKey)
  /-- The server takes request `i`. -/
  | arrive (i : ℕ)
  /-- The handler of a `GetIfModified` goes on to read the value. -/
  | read (i : ℕ)
  | callback (i : ℕ)
  /-- The callback without a response. -/
  | lost (i : ℕ)
  /-- The cache loses a record. -/
  | evict (data : Bytes)

/-- The reply of `Get` and of `GetIfModified`, if the handler has come to it. -/
def arrival (self : Address) (srv : Server.State) (f : Fetch) : Stage :=
  match Server.checkReplicatorAssign self srv.rhs f.key.hash with
  | .error e => .answered (some (.response (.error e))) (Server.onGet self f.key srv).head?
  | .ok () =>
    match f.cached with
    | none => .answered (Server.readReply f.key srv).head? (Server.onGet self f.key srv).head?
    | some cached =>
      if srv.storage.cacheIsValid f.key.raw cached.clocktime then
        .answered (some (.response (.bool true))) (Server.onGet self f.key srv).head?
      else .reading

def reading (srv : Server.State) (f : Fetch) : Stage :=
  .answered (Server.readReply f.key srv).head? (Server.readReply f.key srv).head?

/-- A request comes to another stage, and a reply is recorded. -/
def proceed (s : Caching) (i : ℕ) (f : Fetch) (stage : Stage) : Caching :=
  { s with
    fetches := s.fetches.set i { f with stage := stage }
    replied := match stage with
      | .answered res _ => (f.key, res) :: s.replied
      | _ => s.replied }

/-- The callback of a request, which is then over or sent again. -/
def finish (cfg : Config) (s : Caching) (i : ℕ) (f : Fetch) (res : Option Reply) : Caching :=
  let r := f.onReply cfg res
  { s with
    cache := s.cache.onReply f.key res
    fetches := match r.2 with
      | .report _ => s.fetches.eraseIdx i
      | .call _ | .retryAfter _ => s.fetches.set i { f with retried := r.1, stage := .sent } }

def step (self : Address) (cfg : Config) (s : Caching) : Act → Option Caching
  | .call c =>
    some { s with
      srv := { s.srv with storage := s.srv.storage.call c }
      stored := (s.srv.storage.puts c).toList ++ s.stored }
  | .change whs rhs clock => some { s with srv := { s.srv with whs, rhs, clock } }
  | .submit key => some { s with fetches := s.fetches ++ [⟨key, s.cache.get key, 0, .sent⟩] }
  | .arrive i =>
    (s.fetches[i]?.filter (·.stage = .sent)).map fun f => s.proceed i f (arrival self s.srv f)
  | .read i =>
    (s.fetches[i]?.filter (·.stage = .reading)).map fun f => s.proceed i f (reading s.srv f)
  | .callback i =>
    s.fetches[i]?.bind fun f =>
      match f.stage with
      | .answered res _ => some (s.finish cfg i f res)
      | _ => none
  | .lost i => s.fetches[i]?.map fun f => s.finish cfg i f none
  | .evict data => some { s with cache := s.cache.map (·.erase data) }

end Caching

end Gateway

end Kumofs
