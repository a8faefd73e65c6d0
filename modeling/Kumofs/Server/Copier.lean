import Kumofs.Clock
import Kumofs.Hash
import Kumofs.Lib.Run

/-!
# How a server tells the end of a copy

`replace_state` and the copy tasks of `logic/server/mod_replace.cc`, and the streams of
`mod_replace_stream.cc`. A `ReplaceCopyStart` submits a task to a pool of threads, which scans the
database and offers the records to other servers, one stream to each. A counter of the work that
is left, kept for one replace time, says when `ReplaceCopyEnd` is sent.

What a stream carries is a parameter, and so is when a scan offers: it does so at its end and
whenever the streams it has gathered get too large. Only the count matters here.
-/

namespace Kumofs.Server

/-- `replace_state`. -/
structure ReplaceState where
  pushWaiting : Int
  clocktime : ClockTime
  mgr : Address
  deriving DecidableEq, Repr

namespace ReplaceState

def init : ReplaceState := ⟨0, .zero, ⟨[]⟩⟩

def reset (mgr : Address) (ct : ClockTime) : ReplaceState := ⟨0, ct, mgr⟩

def pushed (s : ReplaceState) (ct : ClockTime) : ReplaceState :=
  if ct = s.clocktime then { s with pushWaiting := s.pushWaiting + 1 } else s

def pushReturned (s : ReplaceState) (ct : ClockTime) : ReplaceState :=
  if ct = s.clocktime then { s with pushWaiting := s.pushWaiting - 1 } else s

def isFinished (s : ReplaceState) (ct : ClockTime) : Bool :=
  s.clocktime = ct ∧ s.pushWaiting = 0

def invalidate (s : ReplaceState) : ReplaceState := { s with pushWaiting := -1 }

end ReplaceState

/-- A `stream_accumulator`: what is offered to one server. -/
structure Stream (ρ : Type*) where
  addr : Address
  replaceTime : ClockTime
  items : ρ
  deriving DecidableEq, Repr

/-- Where a copy task is: in the pool, in its scan, in `while(accum_set_size()) sleep(1)` within
the scan, or past its last `send_offer` and before its `replace_offer_pop`. -/
inductive Phase
  | submitted | scanning | waiting | scanned
  deriving DecidableEq, Repr

structure CopyTask where
  mgr : Address
  replaceTime : ClockTime
  phase : Phase
  deriving DecidableEq, Repr

structure Copier (ρ : Type*) where
  state : ReplaceState
  tasks : List CopyTask
  /-- `m_accum_set`: the streams a receiver may still come for. -/
  accumSet : List (Stream ρ)
  /-- The replace times of the streams that are acknowledged and not yet popped. -/
  popping : List ClockTime
  /-- The `ReplaceCopyEnd`s sent, the last first. -/
  sent : List (Address × ClockTime)
  /-- The streams offered so far whose receiver has not sent the final nil. No code reads it. -/
  unacked : List (Stream ρ)

namespace Copier

variable {ρ : Type*}

def init : Copier ρ := ⟨.init, [], [], [], [], []⟩

/-- `replace_offer_pop`, with `finish_replace_copy`. -/
def replaceOfferPop (c : Copier ρ) (replaceTime : ClockTime) : Copier ρ :=
  let state := c.state.pushReturned replaceTime
  if state.isFinished replaceTime then
    { c with state := state.invalidate, sent := (state.mgr, replaceTime) :: c.sent }
  else { c with state := state }

/-- `send_offer`: what is offered takes the place of `m_accum_set`. -/
def sendOffer (c : Copier ρ) (replaceTime : ClockTime) (offer : List (Address × ρ)) : Copier ρ :=
  let set := offer.map fun o => Stream.mk o.1 replaceTime o.2
  { c with
    accumSet := set
    unacked := c.unacked ++ set
    state := set.foldl (fun s _ => s.pushed replaceTime) c.state }

inductive Act (ρ : Type*)
  | submit (mgr : Address) (replaceTime : ClockTime)
  | begin (k : ℕ)
  /-- An offer before the end of the scan, and the scan going on after it. -/
  | offer (k : ℕ) (offer : List (Address × ρ))
  | resume (k : ℕ)
  | scanEnd (k : ℕ) (offer : List (Address × ρ))
  /-- `goto skip_replace`. -/
  | skip (k : ℕ)
  | finish (k : ℕ)
  /-- The receiver of a stream, of address `a`, has sent the final nil. -/
  | accept (a : Address)
  | pop (k : ℕ)
  /-- The `ReplaceOffer` call timed out. -/
  | timeout (a : Address)
  deriving Repr

/-- Task `k`, if it is in that phase. -/
def taskIn (c : Copier ρ) (k : ℕ) (phase : Phase) : Option CopyTask :=
  c.tasks[k]?.filter (·.phase = phase)

def setPhase (c : Copier ρ) (k : ℕ) (task : CopyTask) (phase : Phase) : Copier ρ :=
  { c with tasks := c.tasks.set k { task with phase := phase } }

def step [DecidableEq ρ] (c : Copier ρ) : Act ρ → Option (Copier ρ)
  | .submit mgr replaceTime => some { c with tasks := c.tasks ++ [⟨mgr, replaceTime, .submitted⟩] }
  | .begin k => (c.taskIn k .submitted).map fun task =>
    { c.setPhase k task .scanning with
      state := (ReplaceState.reset task.mgr task.replaceTime).pushed task.replaceTime }
  | .offer k offer => (c.taskIn k .scanning).map fun task =>
    (c.setPhase k task .waiting).sendOffer task.replaceTime offer
  | .resume k => (c.taskIn k .waiting).bind fun task =>
    if c.accumSet = [] then some (c.setPhase k task .scanning) else none
  | .scanEnd k offer => (c.taskIn k .scanning).map fun task =>
    (c.setPhase k task .scanned).sendOffer task.replaceTime offer
  | .skip k => (c.taskIn k .scanning).map fun task => c.setPhase k task .scanned
  | .finish k => (c.taskIn k .scanned).map fun task =>
    { c with tasks := c.tasks.eraseIdx k }.replaceOfferPop task.replaceTime
  | .accept a => (c.accumSet.find? (·.addr = a)).map fun st =>
    { c with
      accumSet := c.accumSet.erase st
      unacked := c.unacked.erase st
      popping := c.popping ++ [st.replaceTime] }
  | .pop k => c.popping[k]?.map fun replaceTime =>
    { c with popping := c.popping.eraseIdx k }.replaceOfferPop replaceTime
  | .timeout a => (c.accumSet.find? (·.addr = a)).map fun st =>
    { c with accumSet := c.accumSet.erase st }

end Copier

end Kumofs.Server
