import Kumofs.Lib.Run
import Mathlib.Data.List.Sort
import Mathlib.Logic.Function.Basic

/-!
# A session of the RPC layer

`rpc/session.cc`. A call takes the next message id, registers its callback under it and hands its
buffer to a transport that is bound, or keeps it in a queue until one is. The callback is run by a
response with the message id, by a sweep of `step_timeout` that finds its steps used up, or by a
sweep of `force_lost`, with which the destructor ends. The table of callbacks has four partitions,
each with a mutex of its own, so that a sweep holds up the others only at the partition it is at.

Threads are interleaved at the mutexes they take. Calls, and with them their callbacks and buffers,
go by number.
-/

namespace Kumofs.Rpc

/-! ## The table of callbacks -/

/-- `callback_entry`, of the call of that number. -/
structure CallbackEntry where
  call : ℕ
  timeoutSteps : UInt16
  deriving DecidableEq, Repr

/-- `callbacks_t`, a `std::map`: by message id, each once. -/
abbrev Callbacks := List (UInt32 × CallbackEntry)

/-- `PARTITION_NUM`. -/
def partitionNum : ℕ := 4

def partition (msgid : UInt32) : ℕ := msgid.toNat % partitionNum

namespace Callbacks

/-- `insert`: an entry of that message id is replaced. -/
def insert (cbs : Callbacks) (msgid : UInt32) (e : CallbackEntry) : Callbacks :=
  if cbs.any (·.1 == msgid) then cbs.map fun p => if p.1 == msgid then (msgid, e) else p
  else cbs.orderedInsert (fun p q => p.1 ≤ q.1) (msgid, e)

/-- `out`: the entry of that message id, and the rest. -/
def out (cbs : Callbacks) (msgid : UInt32) : Option (CallbackEntry × Callbacks) :=
  (cbs.find? (·.1 == msgid)).map fun p => (p.2, cbs.eraseP (·.1 == msgid))

/-- `erase_if` with `step_timeout`: the entries that stay, with a step less, and those that are
submitted and erased. -/
def stepTimeout (cbs : Callbacks) : Callbacks × Callbacks :=
  ((cbs.filter (0 < ·.2.timeoutSteps)).map fun p =>
      (p.1, { p.2 with timeoutSteps := p.2.timeoutSteps - 1 }),
    cbs.filter fun p => !decide (0 < p.2.timeoutSteps))

end Callbacks

/-! ## The session -/

variable {τ : Type} [DecidableEq τ]

/-- `session`, over transports of type `τ`. -/
structure Session (τ : Type) where
  msgidRr : UInt32
  callbacks : ℕ → Callbacks
  lost : Bool
  binds : List τ
  pendingQueue : List ℕ

/-- What a callback is called with. -/
inductive Outcome
  | response
  | timeoutError
  | lostError
  deriving DecidableEq, Repr

/-- A callback that was called or submitted, and the message id this was for. -/
structure CallbackRun where
  call : ℕ
  msgid : UInt32
  outcome : Outcome
  deriving DecidableEq, Repr

/-! ## The threads -/

/-- `call`, between taking the message id, `insert`, and the rest of `call_real`. -/
structure Calling where
  call : ℕ
  msgid : UInt32
  timeoutSteps : UInt16
  inserted : Bool
  deriving DecidableEq, Repr

inductive SweepKind
  | forEachClear
  | eraseIf
  deriving DecidableEq, Repr

/-- A loop over the partitions, and the one it comes to next. -/
structure Sweep where
  kind : SweepKind
  i : ℕ
  deriving DecidableEq, Repr

/-- `session::bind_transport`, before it takes the queue and after, with what it has still to
send. -/
inductive Binding (τ : Type)
  | bound (t : τ)
  | sending (t : τ) (pendings : List ℕ)
  deriving DecidableEq

structure World (τ : Type) where
  session : Session τ
  /-- The message ids of the calls, by number. -/
  msgids : List UInt32
  calling : List Calling
  sweeps : List Sweep
  binding : List (Binding τ)
  runs : List CallbackRun
  /-- The buffers that were sent, each with its transport. -/
  sent : List (τ × ℕ)
  destroyed : Bool

inductive Act (τ : Type)
  | call (timeoutSteps : UInt16)
  | insert (k : ℕ)
  | submit (k : ℕ)
  | processResponse (msgid : UInt32)
  | stepTimeout
  | forceLost
  | sweep (k : ℕ)
  | bind (t : τ)
  | swap (k : ℕ)
  | send (k : ℕ)
  | unbind (t : τ)
  | destroy
  deriving DecidableEq

namespace World

def init : World τ :=
  { session := ⟨0, fun _ => [], false, [], []⟩
    msgids := []
    calling := []
    sweeps := []
    binding := []
    runs := []
    sent := []
    destroyed := false }

def setCallbacks (w : World τ) (i : ℕ) (cbs : Callbacks) : World τ :=
  { w with session := { w.session with callbacks := Function.update w.session.callbacks i cbs } }

/-- The callbacks of entries, called or submitted. -/
def run (w : World τ) (outcome : Outcome) (cbs : Callbacks) : World τ :=
  { w with runs := w.runs ++ cbs.map fun p => ⟨p.2.call, p.1, outcome⟩ }

/-- `pack`: `__sync_add_and_fetch(&m_msgid_rr, 1)`. -/
def call (w : World τ) (timeoutSteps : UInt16) : World τ :=
  let msgid := w.session.msgidRr + 1
  { w with
    session := { w.session with msgidRr := msgid }
    msgids := w.msgids ++ [msgid]
    calling := w.calling ++ [⟨w.msgids.length, msgid, timeoutSteps, false⟩] }

def insert (w : World τ) (k : ℕ) (c : Calling) : World τ :=
  let i := partition c.msgid
  { w.setCallbacks i ((w.session.callbacks i).insert c.msgid ⟨c.call, c.timeoutSteps⟩) with
    calling := w.calling.set k { c with inserted := true } }

/-- `session::call_real` after `insert`. -/
def submit (w : World τ) (k : ℕ) (c : Calling) : World τ :=
  let w := { w with calling := w.calling.eraseIdx k }
  if w.session.lost then w
  else
    match w.session.binds[w.session.msgidRr.toNat % w.session.binds.length]? with
    -- `m_binds.empty()`
    | none =>
      { w with session := { w.session with
          pendingQueue := w.session.pendingQueue ++ [c.call] } }
    | some t => { w with sent := w.sent ++ [(t, c.call)] }

def processResponse (w : World τ) (msgid : UInt32) : World τ :=
  match (w.session.callbacks (partition msgid)).out msgid with
  | none => w
  | some (e, cbs) => (w.setCallbacks (partition msgid) cbs).run .response [(msgid, e)]

/-- One partition of `for_each_clear`. -/
def clear (w : World τ) (i : ℕ) : World τ :=
  (w.setCallbacks i []).run .lostError (w.session.callbacks i)

/-- One partition of `erase_if`. -/
def stepTimeout (w : World τ) (i : ℕ) : World τ :=
  let r := (w.session.callbacks i).stepTimeout
  (w.setCallbacks i r.1).run .timeoutError r.2

def visit (w : World τ) (i : ℕ) : SweepKind → World τ
  | .forEachClear => w.clear i
  | .eraseIf => w.stepTimeout i

/-- The next partition of a loop; the loop is over after the last. -/
def sweep (w : World τ) (k : ℕ) (s : Sweep) : World τ :=
  let sweeps :=
    if s.i + 1 < partitionNum then w.sweeps.set k { s with i := s.i + 1 }
    else w.sweeps.eraseIdx k
  { w.visit s.i s.kind with sweeps }

def lose (w : World τ) : World τ := { w with session := { w.session with lost := true } }

/-- `~basic_session`: `force_lost` at one go, since nobody else holds the session. -/
def destroy (w : World τ) : World τ :=
  { (List.range partitionNum).foldl clear w.lose with destroyed := true }

/-- `basic_session::bind_transport`. -/
def bind (w : World τ) (t : τ) : World τ :=
  { w with
    session := { w.session with binds := w.session.binds ++ [t] }
    binding := w.binding ++ [.bound t] }

/-- `pendings.swap(m_pending_queue)`. -/
def swap (w : World τ) (k : ℕ) (t : τ) : World τ :=
  { w with
    session := { w.session with pendingQueue := [] }
    binding := w.binding.set k (.sending t w.session.pendingQueue) }

/-- One `send_datav` of `session::bind_transport`, or its end. -/
def send (w : World τ) (k : ℕ) (t : τ) : List ℕ → World τ
  | [] => { w with binding := w.binding.eraseIdx k }
  | b :: pendings =>
    { w with
      binding := w.binding.set k (.sending t pendings)
      sent := w.sent ++ [(t, b)] }

/-- `unbind_transport`. -/
def unbind (w : World τ) (t : τ) : World τ :=
  { w with session := { w.session with binds := w.session.binds.filter (· != t) } }

/-- The session is destroyed when no thread is in it, and not used after that. -/
def step (w : World τ) (a : Act τ) : Option (World τ) :=
  if w.destroyed then none
  else
    match a with
    | .call timeoutSteps => some (w.call timeoutSteps)
    | .insert k =>
      match w.calling[k]? with
      | some c => if c.inserted then none else some (w.insert k c)
      | none => none
    | .submit k =>
      match w.calling[k]? with
      | some c => if c.inserted then some (w.submit k c) else none
      | none => none
    | .processResponse msgid => some (w.processResponse msgid)
    | .stepTimeout => some { w with sweeps := w.sweeps ++ [⟨.eraseIf, 0⟩] }
    | .forceLost => some { w.lose with sweeps := w.sweeps ++ [⟨.forEachClear, 0⟩] }
    | .sweep k => w.sweeps[k]?.map (w.sweep k)
    | .bind t => some (w.bind t)
    | .swap k =>
      match w.binding[k]? with
      | some (.bound t) => some (w.swap k t)
      | some (.sending _ _) | none => none
    | .send k =>
      match w.binding[k]? with
      | some (.sending t pendings) => some (w.send k t pendings)
      | some (.bound _) | none => none
    | .unbind t => some (w.unbind t)
    | .destroy =>
      if w.calling = [] ∧ w.sweeps = [] ∧ w.binding = [] then some w.destroy else none

end World

end Kumofs.Rpc
