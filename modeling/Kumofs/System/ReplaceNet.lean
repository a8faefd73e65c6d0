import Kumofs.Server.Copier
import Kumofs.Server.Replace
import Kumofs.System.Managers

/-!
# A manager and its servers

One manager, the servers it sends `ReplaceCopyStart`, `ReplaceDeleteStart` and `HashSpaceSync`, and
the tasks these submit to the servers' pools of threads. Messages are handled and tasks go on at any
time and in any order, or never. A copy task takes its server's `rhs` for the source and sets `whs`,
passes the records of its database, sends them off as streams and reports its end by the counter of
`Kumofs.Server.Copier`; a delete task goes by whatever `whs` its server has when it runs.
-/

namespace Kumofs

open Server

/-- What a copy task keeps besides its place in the copier. -/
structure Job where
  hs : HashSpace
  full : Bool
  /-- `srchs`, once the task has taken it. -/
  src : Option HashSpace
  /-- The records gathered and not sent yet, once the scan has passed the database. -/
  records : Option (List Offer)

structure ServerNode where
  whs : HashSpace
  rhs : HashSpace
  storage : Storage
  copier : Copier (List Offer)
  /-- The jobs of the copier's tasks, in their order. -/
  jobs : List Job
  /-- The replace times whose scan has passed the database. No code reads it. -/
  visited : List ClockTime

/-- A `start_replace`: what it sent to whom, and the manager's `rhs` then. -/
structure Start where
  wseed : Seed
  rseed : Seed
  dests : List Address
  deriving DecidableEq

structure ReplaceNet where
  mgr : Manager
  srv : Address → ServerNode
  /-- The messages on their way to servers. -/
  wire : List (Address × ServerMsg)
  /-- The `ReplaceCopyEnd`s on their way to the manager. -/
  reports : List (Address × ClockTime)
  /-- The delete tasks in the pools, with the hash space each was sent. -/
  deletes : List (Address × HashSpace)
  /-- What no code reads: the replaces started, the last first, whether the last one's delete phase
  was sent off, and the `ReplaceCopyEnd`s handled. -/
  starts : List Start
  ended : Bool
  reported : List (Address × ClockTime)

namespace ReplaceNet

/-- What happens at the manager but for the messages of servers. -/
inductive MgrAct
  | connect (a : Address)
  | lost (a : Address)
  | removeLocked (a : Address) (ct : ClockTime)
  | invalidate
  | fire (cas : UInt32)
  | electionFailed (call : ℕ)
  | attach (replace : Bool)
  | detach (replace : Bool)
  | setAutoReplace (enable : Bool)
  | startReplace (full : Bool)
  | publish
  | deleteEnd (replaceTime : ClockTime) (adjustClock : UInt32) (a : Address)
  | clockUpdate (c : UInt32)
  | keepAlive
  | time (t : UInt32)
  | expire (k : ℕ)
  deriving DecidableEq, Repr

inductive Act
  | manager (a : MgrAct)
  /-- The manager handles a `ReplaceCopyEnd`. -/
  | copyEnd (k : ℕ) (adjustClock : UInt32)
  /-- A server handles a message. -/
  | receive (k : ℕ)
  | begin (n : Address) (k : ℕ)
  | switch (n : Address) (k : ℕ)
  | scan (n : Address) (k : ℕ) (now : ClockTime)
  | skip (n : Address) (k : ℕ)
  /-- The first `m` records gathered are sent off before the scan goes on. -/
  | offer (n : Address) (k m : ℕ)
  | resume (n : Address) (k : ℕ)
  | scanEnd (n : Address) (k : ℕ)
  | finish (n : Address) (k : ℕ)
  /-- Server `a` has stored a stream of server `n`, and tells so by the final nil. -/
  | accept (n a : Address)
  | pop (n : Address) (k : ℕ)
  | timeout (n a : Address)
  | delete (k : ℕ) (now : ClockTime)

def init (mgr : Manager) (whs rhs : Address → HashSpace) (storage : Address → Storage) :
    ReplaceNet :=
  ⟨mgr, fun n => ⟨whs n, rhs n, storage n, .init, [], []⟩, [], [], [], [], false, []⟩

def setSrv (s : ReplaceNet) (n : Address) (x : ServerNode) : ReplaceNet :=
  { s with srv := Function.update s.srv n x }

/-! ## The manager -/

section Step

variable (hash : Bytes → UInt64)

def handle (m : Manager) : MgrAct → Option (Manager × List Out)
  | .connect a => some (m.addServer a, [])
  | .lost a => some (m.removeServer a, [])
  | .removeLocked a ct =>
    if (a, ct) ∈ m.removing then some (m.removeServerLocked a ct) else none
  | .invalidate =>
    if m.invalidating = 0 ∨ m.finishing then none else some (m.invalidateCopying, [])
  | .fire cas =>
    if cas ∈ m.timers then
      some ({ m with timers := m.timers.erase cas }.casCheckedReplaceElection hash cas)
    else none
  | .electionFailed call =>
    if call ∈ m.calls then some (m.onElectionResult call none) else none
  | .attach replace => some (m.controlAttach hash replace)
  | .detach replace => some (m.controlDetach hash replace)
  | .setAutoReplace enable => some (m.setAutoReplace hash enable)
  | .startReplace full => some (m.startReplace full)
  | .publish => if m.finishing then some m.publish else none
  | .deleteEnd replaceTime adjustClock a =>
    if m.finishing then none else some (m.replaceDeleteEnd replaceTime adjustClock a, [])
  | .clockUpdate c => some (m.clockUpdate c, [])
  | .keepAlive => some (m.clockIncr, [])
  | .time t => some ({ m with clock := m.clock.clockUpdateTime t }, [])
  | .expire k =>
    some ({ m with newServers := m.newServers.modify k ({ · with expired := true }) }, [])

/-- A `ReplaceCopyStart` among what a handler sends: its destinations and its `Seed`. -/
def copyStartOf (outs : List Out) : Option (List Address × Seed) :=
  (Managers.serverMsgs outs).findSome? fun
    | (dests, .replaceCopyStart hsseed _ _) => some (dests, hsseed)
    | _ => none

/-- A handler's end: what it sends goes off. `start_replace` cannot get `m_replace_mutex` from
`finish_replace_copy`. -/
def send (s : ReplaceNet) (r : Manager × List Out) : Option ReplaceNet :=
  let wire := s.wire ++ (Managers.serverMsgs r.2).flatMap fun d => d.1.map (·, d.2)
  match copyStartOf r.2 with
  | none => some { s with mgr := r.1, wire := wire }
  | some (dests, seed) =>
    if s.mgr.finishing then none
    else some
      { s with
        mgr := r.1
        wire := wire
        starts := ⟨seed, r.1.rhs.seed, dests⟩ :: s.starts
        ended := false }

/-! ## The servers -/

/-- `HashSpaceSync`. -/
def ServerNode.hashSpaceSync (x : ServerNode) (wseed rseed : Seed) : ServerNode :=
  { x with
    whs := if x.whs.clocktime ≤ wseed.clocktime ∧ !wseed.empty then .ofSeed hash wseed else x.whs
    rhs := if x.rhs.clocktime ≤ rseed.clocktime ∧ !rseed.empty then .ofSeed hash rseed else x.rhs }

/-- A message is handled: a hash space is taken, or a task submitted. -/
def handleMsg (s : ReplaceNet) (n : Address) : ServerMsg → ReplaceNet
  | .hashSpaceSync wseed rseed _ =>
    s.setSrv n (ServerNode.hashSpaceSync hash (s.srv n) wseed rseed)
  | .replaceCopyStart hsseed _ full =>
    let x := s.srv n
    s.setSrv n
      { x with
        copier := { x.copier with
          tasks := x.copier.tasks ++ [⟨s.mgr.addr, hsseed.clocktime, .submitted⟩] }
        jobs := x.jobs ++ [⟨.ofSeed hash hsseed, full, none, none⟩] }
  | .replaceDeleteStart hsseed _ =>
    { s with deletes := s.deletes ++ [(n, .ofSeed hash hsseed)] }

/-- The streams of an `offer_storage`, one to each receiver. -/
def streams (records : List Offer) : List (Address × List Offer) :=
  (records.map (·.dest)).dedup.map fun a => (a, records.filter (·.dest = a))

/-- A step of the copier of server `n`, with the jobs it leaves; a `ReplaceCopyEnd` goes off. -/
def copy (s : ReplaceNet) (n : Address) (a : Copier.Act (List Offer)) (jobs : List Job) :
    Option ReplaceNet :=
  ((s.srv n).copier.step a).map fun c =>
    { s.setSrv n { s.srv n with copier := c, jobs := jobs } with
      reports := s.reports ++
        (c.sent.take (c.sent.length - (s.srv n).copier.sent.length)).map fun r => (n, r.2) }

/-- Job `k` of server `n`, while its task is in its scan. -/
def scanning (s : ReplaceNet) (n : Address) (k : ℕ) : Option Job :=
  ((s.srv n).copier.taskIn k .scanning).bind fun _ => (s.srv n).jobs[k]?

def setJob (s : ReplaceNet) (n : Address) (k : ℕ) (job : Job) : List Job :=
  (s.srv n).jobs.set k job

/-- The scan of a job: the database and the records it leaves. -/
def Job.scan (job : Job) (self : Address) (now : ClockTime) (x : Storage) :
    Option (Storage × List Offer) :=
  if job.full then some (fullReplaceCopy job.hs now x)
  else job.src.bind fun src =>
    if skipsReplace self src job.hs then none else some (replaceCopy self src job.hs now x)

def step (s : ReplaceNet) : Act → Option ReplaceNet
  | .manager a => (handle hash s.mgr a).bind s.send
  | .copyEnd k adjustClock =>
    if s.mgr.finishing then none
    else s.reports[k]?.map fun r =>
      let m := s.mgr.replaceCopyEnd r.2 adjustClock r.1
      { s with
        mgr := m.1
        wire := s.wire ++ (Managers.serverMsgs m.2).flatMap fun d => d.1.map (·, d.2)
        reports := s.reports.eraseIdx k
        ended := s.ended || m.1.finishing
        reported := r :: s.reported }
  | .receive k => s.wire[k]?.map fun d =>
    { s with wire := s.wire.eraseIdx k }.handleMsg hash d.1 d.2
  | .begin n k => s.copy n (.begin k) (s.srv n).jobs
  | .switch n k => (s.scanning n k).bind fun job =>
    if job.full ∨ job.src.isSome then none
    else some (s.setSrv n
      { s.srv n with
        whs := job.hs
        jobs := s.setJob n k { job with src := some (s.srv n).rhs } })
  | .scan n k now => (s.scanning n k).bind fun job =>
    if job.records.isSome then none
    else (Job.scan job n now (s.srv n).storage).map fun r => s.setSrv n
      { s.srv n with
        storage := r.1
        jobs := s.setJob n k { job with records := some r.2 }
        visited := job.hs.clocktime :: (s.srv n).visited }
  | .skip n k => (s.scanning n k).bind fun job =>
    if !job.full ∧ job.records = none ∧ job.src.any (skipsReplace n · job.hs) then
      (s.setSrv n { s.srv n with visited := job.hs.clocktime :: (s.srv n).visited }).copy n
        (.skip k) (s.srv n).jobs
    else none
  | .offer n k m => (s.scanning n k).bind fun job => job.records.bind fun records =>
    s.copy n (.offer k (streams (records.take m)))
      (s.setJob n k { job with records := some (records.drop m) })
  | .resume n k => s.copy n (.resume k) (s.srv n).jobs
  | .scanEnd n k => (s.scanning n k).bind fun job => job.records.bind fun records =>
    s.copy n (.scanEnd k (streams records)) (s.setJob n k { job with records := some [] })
  | .finish n k => s.copy n (.finish k) ((s.srv n).jobs.eraseIdx k)
  | .accept n a => ((s.srv n).copier.accumSet.find? (·.addr = a)).bind fun st =>
    (s.setSrv a { s.srv a with storage := st.items.foldl submitMessage (s.srv a).storage }).copy n
      (.accept a) (s.srv n).jobs
  | .pop n k => s.copy n (.pop k) (s.srv n).jobs
  | .timeout n a => s.copy n (.timeout a) (s.srv n).jobs
  | .delete k now => s.deletes[k]?.map fun d =>
    let x := s.srv d.1
    { s.setSrv d.1 { x with rhs := x.whs, storage := replaceDelete d.1 x.whs now x.storage } with
      deletes := s.deletes.eraseIdx k }

end Step

end ReplaceNet

end Kumofs
