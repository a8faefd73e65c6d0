import Kumofs.Hash
import Kumofs.Lib.Run
import Kumofs.Wavy.Edge
import Mathlib.Data.List.ReduceOption
import Mathlib.Logic.Function.Basic

/-!
# Output

`mpsrc/wavy_output.cc`. An fd has a queue of vectors to write, each with a request whose finalizer
is called when the vector leaves the queue. `writev` puts vectors into the queue and, if it was
empty, writes what the kernel takes and has the worker of the fd watch it for the rest. A worker
waits for events, up to `MP_WAVY_EDGE_BACKLOG_SIZE` at a time, and writes for one after another.

An operation on a queue holds its mutex to the end, so that threads are interleaved at whole
operations. The edge is that of epoll: an event is reported once, and again only after
`shot_reactivate`. A vector is the bytes it points to, which nobody changes before its finalizer is
called.
-/

namespace Kumofs.Wavy

/-- `MP_WAVY_WRITEV_LIMIT`. -/
def writevLimit : ℕ := 1024

/-! ## The queue of an fd -/

/-- `output::impl::context`, over finalizers with their user data; a request may have none. -/
structure Context (ρ : Type*) where
  bufvec : List Bytes
  reqvec : List (Option ρ)

/-- An fd with what the kernel has taken for it and the finalizers that were called. -/
structure Fd (ρ : Type*) where
  ctx : Context ρ
  notify : Notify
  written : Bytes
  finalized : List ρ
  /-- `shutdown(fd, SHUT_RD)` was called. -/
  broken : Bool

/-- What `::writev` returns; `again` is `EAGAIN` or `EINTR`. -/
inductive WriteResult
  | wrote (wl : ℕ)
  | again
  | failed
  deriving DecidableEq, Repr

/-- The loop over the vectors with the `wl` bytes that were written: how many are done with, and
the vectors as it leaves them. -/
def advance : ℕ → List Bytes → ℕ × List Bytes
  | _, [] => (0, [])
  | wl, v :: vs =>
    if v.length ≤ wl then ((advance (wl - v.length) vs).1 + 1, v :: (advance (wl - v.length) vs).2)
    else (0, v.drop wl :: vs)

namespace Fd

variable {ρ : Type*}

def init : Fd ρ := ⟨⟨[], []⟩, .unwatched, [], [], false⟩

def empty (f : Fd ρ) : Bool := f.ctx.bufvec.isEmpty

/-- `context::push`, without its result: whether the queue was empty before. -/
def push (f : Fd ρ) (vec : List (Bytes × Option ρ)) : Fd ρ :=
  { f with ctx := ⟨f.ctx.bufvec ++ vec.map Prod.fst, f.ctx.reqvec ++ vec.map Prod.snd⟩ }

/-- `context::consumed`, without its result: whether the queue is empty after. -/
def consumed (f : Fd ρ) (num : ℕ) : Fd ρ :=
  { f with
    ctx := ⟨f.ctx.bufvec.drop num, f.ctx.reqvec.drop num⟩
    finalized := f.finalized ++ (f.ctx.reqvec.take num).reduceOption }

/-- `context::clear`. -/
def clear (f : Fd ρ) : Fd ρ := f.consumed f.ctx.bufvec.length

/-- `context::skip_zero`. -/
def skipZero (f : Fd ρ) : Fd ρ := f.consumed (f.ctx.bufvec.takeWhile (·.isEmpty)).length

/-! ## The edge -/

def addNotify (f : Fd ρ) (ok : Bool) : Option (Fd ρ) :=
  (f.notify.addNotify ok).map fun m => { f with notify := m }

def shotReactivate (f : Fd ρ) (ok : Bool) : Fd ρ :=
  { f with notify := f.notify.shotReactivate ok }

def shotRemove (f : Fd ρ) : Fd ρ := { f with notify := .unwatched }

/-! ## The worker -/

def initialRemove (f : Fd ρ) : Fd ρ := { f.clear with broken := true }

def failedRemove (f : Fd ρ) : Fd ρ := { f.clear.shotRemove with broken := true }

def successRemove (f : Fd ρ) : Fd ρ := f.shotRemove

/-- The bytes that `::writev` is called with. -/
def offered (f : Fd ρ) : Bytes := (f.ctx.bufvec.take writevLimit).flatten

/-- What follows `::writev` where it has written. -/
def wrote (f : Fd ρ) (wl : ℕ) : Fd ρ :=
  { { f with
      ctx := ⟨(advance wl f.ctx.bufvec).2, f.ctx.reqvec⟩ }.consumed (advance wl f.ctx.bufvec).1 with
    written := f.written ++ f.offered.take wl }

/-- `worker::try_write_initial`, with its result. -/
def tryWriteInitial (f : Fd ρ) (wl : WriteResult) : Option (Fd ρ × Bool) :=
  let f := f.skipZero
  if f.empty then some (f, true)
  else
    match wl with
    | .again => some (f, false)
    | .failed => some (f.initialRemove, true)
    | .wrote wl =>
      if wl = 0 then some (f.initialRemove, true)
      else if wl ≤ f.offered.length then some (f.wrote wl, (f.wrote wl).empty)
      else none

/-- `worker::try_write`. -/
def tryWrite (f : Fd ρ) (wl : WriteResult) (ok : Bool) : Option (Fd ρ) :=
  let f := f.skipZero
  if f.empty then some f.successRemove
  else
    match wl with
    | .again => some f
    | .failed => some f.failedRemove
    | .wrote wl =>
      if wl = 0 then some f.failedRemove
      else if wl ≤ f.offered.length then
        if (f.wrote wl).empty then some (f.wrote wl).successRemove
        else some ((f.wrote wl).shotReactivate ok)
      else none

/-- `worker::watch`. -/
def watch (f : Fd ρ) (ok : Bool) : Fd ρ := (f.addNotify ok).getD f.failedRemove

/-- `output::impl::writev`. -/
def writev (f : Fd ρ) (vec : List (Bytes × Option ρ)) (wl : WriteResult) (ok : Bool) :
    Option (Fd ρ) :=
  if f.empty then
    ((f.push vec).tryWriteInitial wl).map fun r => if r.2 then r.1 else r.1.watch ok
  else some (f.push vec)

/-- The handler of the fd is gone, and `~handler` closes it: epoll forgets it, and the queue stays
for who gets an fd of that number next. -/
def close (f : Fd ρ) : Fd ρ := { f with notify := .unwatched, broken := false }

end Fd

/-- The vectors of a `writev` with one request, which goes with the last. -/
def withRequest {ρ : Type*} (bufvec : List Bytes) (req : ρ) : List (Bytes × Option ρ) :=
  bufvec.zip (List.replicate (bufvec.length - 1) none ++ [some req])

/-! ## The workers -/

/-- The fds by number, and for each worker those of its backlog that it has still to write for. -/
structure Output (ρ : Type*) where
  fds : ℕ → Fd ρ
  backlog : ℕ → List ℕ

namespace Output

variable {ρ : Type*}

inductive Act (ρ : Type*)
  | writev (fd : ℕ) (vec : List (Bytes × Option ρ)) (wl : WriteResult) (ok : Bool)
  /-- `m_edge.wait` of a worker returns. -/
  | wait (worker : ℕ) (ready : List ℕ)
  | tryWrite (worker : ℕ) (wl : WriteResult) (ok : Bool)
  | close (fd : ℕ)

def init : Output ρ := ⟨fun _ => .init, fun _ => []⟩

def setFd (s : Output ρ) (fd : ℕ) (f : Fd ρ) : Output ρ :=
  { s with fds := Function.update s.fds fd f }

/-- The fds of a worker that are armed, each once. -/
def Ready (workers : ℕ) (s : Output ρ) (worker : ℕ) (ready : List ℕ) : Prop :=
  ready.Nodup ∧ ready.length ≤ backlogSize ∧
    ∀ fd ∈ ready, fd % workers = worker ∧ (s.fds fd).notify = .armed

instance (workers : ℕ) (s : Output ρ) (worker : ℕ) (ready : List ℕ) :
    Decidable (s.Ready workers worker ready) :=
  inferInstanceAs (Decidable (_ ∧ _))

def report (s : Output ρ) (worker : ℕ) (ready : List ℕ) : Output ρ where
  fds fd := if fd ∈ ready then { s.fds fd with notify := .shot } else s.fds fd
  backlog := Function.update s.backlog worker ready

/-- `workers` is `m_workers.size()`; the worker of an fd is `fd % workers`. -/
def step (workers : ℕ) (s : Output ρ) : Act ρ → Option (Output ρ)
  | .writev fd vec wl ok => ((s.fds fd).writev vec wl ok).map (s.setFd fd)
  | .wait worker ready =>
    if s.backlog worker = [] ∧ s.Ready workers worker ready then some (s.report worker ready)
    else none
  | .tryWrite worker wl ok =>
    match s.backlog worker with
    | [] => none
    | fd :: rest =>
      ((s.fds fd).tryWrite wl ok).map fun f =>
        { s.setFd fd f with backlog := Function.update s.backlog worker rest }
  | .close fd => some (s.setFd fd (s.fds fd).close)

end Output

end Kumofs.Wavy
