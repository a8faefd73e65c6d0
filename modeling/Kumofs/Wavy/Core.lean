import Kumofs.Lib.Run
import Kumofs.Wavy.Edge
import Mathlib.Logic.Function.Basic

/-!
# The event loop

`mpsrc/wavy_core.cc`. The worker threads share an edge, the events that it has reported last and a
queue of tasks. One thread at a time waits for events, while the others run tasks; when it has got
some, each thread takes one after another, and who finds none left waits for more.

Threads are interleaved at the mutex `m_mutex`: from where a thread takes it to where it gives it
up, by `unlock` or by `m_cond.wait`, nobody else has it. `signal` wakes one of those that wait, and
a thread may wake for no reason. Tasks go by the number of their `submit`, handlers by any number.
-/

namespace Kumofs.Wavy

/-- `MP_WAVY_TASK_QUEUE_LIMIT`. -/
def taskQueueLimit : ℕ := 16

/-- Where a thread of `core::impl::operator()` is. -/
inductive Thread
  /-- Before it takes the mutex, at `retry` or woken. -/
  | entering
  /-- In `m_cond.wait`. -/
  | waiting
  /-- At `retry_poll`. -/
  | polling
  /-- `m_edge.wait` has returned `num` events, and the mutex is not yet taken again. -/
  | polled (num : ℕ)
  /-- In the task. -/
  | running (task : ℕ)
  /-- In `read_event` of the handler that `m_state` has had for the fd. -/
  | handling (fd : ℕ) (handler : Option ℕ)
  | ended
  deriving DecidableEq, Repr

/-- `core::impl`, with the tasks that were submitted and started, and the events that were reported
and handed to a handler. -/
structure Core where
  threads : List Thread
  taskQueue : List ℕ
  backlog : List ℕ
  off : ℕ
  num : ℕ
  pollable : Bool
  endFlag : Bool
  /-- `m_state`. -/
  state : ℕ → Option ℕ
  notify : ℕ → Notify
  submitted : ℕ
  started : List ℕ
  reported : List ℕ
  handed : List ℕ

namespace Core

/-- With the threads of `add_thread`. -/
def init (threads : ℕ) : Core :=
  { threads := List.replicate threads .entering
    taskQueue := []
    backlog := []
    off := 0
    num := 0
    pollable := true
    endFlag := false
    state := fun _ => none
    notify := fun _ => .unwatched
    submitted := 0
    started := []
    reported := []
    handed := [] }

def setThread (s : Core) (k : ℕ) (t : Thread) : Core := { s with threads := s.threads.set k t }

/-- `m_cond.signal()`: thread `wake` is woken, if any waits. -/
def signal (s : Core) (wake : ℕ) : Option Core :=
  if .waiting ∈ s.threads then
    if s.threads[wake]? = some .waiting then some (s.setThread wake .entering) else none
  else some s

/-- `m_cond.broadcast()`. -/
def broadcast (s : Core) : Core :=
  { s with threads := s.threads.map fun t => if t = .waiting then .entering else t }

/-- `submit_impl`. -/
def submit (s : Core) (wake : ℕ) : Option Core :=
  { s with taskQueue := s.taskQueue ++ [s.submitted], submitted := s.submitted + 1 }.signal wake

/-- `add_impl`, of an fd that can be made non-blocking. -/
def add (s : Core) (fd newh : ℕ) (ok : Bool) : Core :=
  { s with
    state := Function.update s.state fd (some newh)
    notify := Function.update s.notify fd (((s.notify fd).addNotify ok).getD (s.notify fd)) }

/-- Thread `k` has the next event, `m_backlog[m_off]`, and `++m_off`; then it calls the handler of
the fd. -/
def take (s : Core) (k : ℕ) : Option Core :=
  s.backlog[s.off]?.map fun fd =>
    { s.setThread k (.handling fd (s.state fd)) with
      off := s.off + 1, handed := s.handed ++ [fd] }

/-- Thread `k` takes the mutex at the head of the loop. -/
def enter (s : Core) (k wake : ℕ) : Option Core :=
  if taskQueueLimit < s.taskQueue.length ∨ s.pollable = false then
    if s.endFlag then some (s.setThread k .ended)
    else
      match s.taskQueue with
      | [] => some (s.setThread k .waiting)
      | task :: rest =>
        let s := { s with taskQueue := rest, started := s.started ++ [task] }
        (if rest = [] then some s else s.signal wake).map (·.setThread k (.running task))
  else if s.num = s.off then some { s.setThread k .polling with pollable := false }
  else s.take k

/-- Armed fds, each once. -/
def Ready (s : Core) (ready : List ℕ) : Prop :=
  ready ≠ [] ∧ ready.Nodup ∧ ready.length ≤ backlogSize ∧ ∀ fd ∈ ready, s.notify fd = .armed

instance (s : Core) (ready : List ℕ) : Decidable (s.Ready ready) :=
  inferInstanceAs (Decidable (_ ∧ _))

/-- `m_edge.wait` returns, and `m_backlog` holds the events. -/
def poll (s : Core) (k : ℕ) (ready : List ℕ) : Core :=
  { s.setThread k (.polled ready.length) with
    backlog := ready
    notify := fun fd => if fd ∈ ready then .shot else s.notify fd
    reported := s.reported ++ ready }

/-- Thread `k` takes the mutex again. -/
def relock (s : Core) (k num wake : ℕ) : Option Core :=
  ({ s with off := 0, num, pollable := true }.signal wake).bind (·.take k)

/-- `read_event` has thrown: the fd is closed with its handler. -/
def shotRemove (s : Core) (fd : ℕ) : Core :=
  { s with
    state := Function.update s.state fd none
    notify := Function.update s.notify fd .unwatched }

def shotReactivate (s : Core) (fd : ℕ) (ok : Bool) : Core :=
  { s with notify := Function.update s.notify fd ((s.notify fd).shotReactivate ok) }

inductive Act
  | submit (wake : ℕ)
  /-- `add_impl`; no open fd has that number. -/
  | add (fd newh : ℕ) (ok : Bool)
  | addThread
  | endAll
  | enter (k wake : ℕ)
  /-- Thread `k` wakes for no reason. -/
  | wake (k : ℕ)
  | poll (k : ℕ) (ready : List ℕ)
  /-- `m_end_flag` is seen at `retry_poll`. -/
  | pollEnd (k : ℕ)
  | relock (k wake : ℕ)
  /-- The task is done, or has thrown. -/
  | finish (k : ℕ)
  | handled (k : ℕ) (ok : Bool)
  | thrown (k : ℕ)
  deriving DecidableEq, Repr

def step (s : Core) : Act → Option Core
  | .submit wake => s.submit wake
  | .add fd newh ok => if s.state fd = none then some (s.add fd newh ok) else none
  | .addThread => some { s with threads := s.threads ++ [.entering] }
  | .endAll => some { s with endFlag := true }.broadcast
  | .enter k wake => if s.threads[k]? = some .entering then s.enter k wake else none
  | .wake k => if s.threads[k]? = some .waiting then some (s.setThread k .entering) else none
  | .poll k ready =>
    if s.threads[k]? = some .polling ∧ s.Ready ready then some (s.poll k ready) else none
  | .pollEnd k =>
    if s.threads[k]? = some .polling ∧ s.endFlag then some (s.setThread k .ended) else none
  | .relock k wake =>
    match s.threads[k]? with
    | some (.polled num) => s.relock k num wake
    | _ => none
  | .finish k =>
    match s.threads[k]? with
    | some (.running _) => some (s.setThread k .entering)
    | _ => none
  | .handled k ok =>
    match s.threads[k]? with
    | some (.handling fd _) => some ((s.shotReactivate fd ok).setThread k .entering)
    | _ => none
  | .thrown k =>
    match s.threads[k]? with
    | some (.handling fd _) => some ((s.shotRemove fd).setThread k .entering)
    | _ => none

end Core

end Kumofs.Wavy
