import Kumofs.Lib.Run

/-!
# Calls after a time

`timer_handler` of `logic/rpc_server.h` with `do_after` and `step_do_after` of
`logic/wavy_server.cc`. The thread of the timer only submits `timer_handler`, so that several
threads may be in it. They are interleaved at `m_do_after_mutex`, where they call a function, and
where they read and write `m_timer_remain_steps`, which has no mutex; what a function throws is
dropped, as is what `step_timeout` throws.
-/

namespace Kumofs

def timerPrecisionUsec : UInt64 := 500 * 1000

def doAfterBySeconds : UInt64 := 1000 * 1000 / timerPrecisionUsec

structure DoAfterEntry (α : Type) where
  remainSteps : ℕ
  func : α
  deriving DecidableEq, Repr

/-- A call of `do_after`, and how many calls of `step_do_after` had gone over the list before. -/
structure DoAfter (α : Type) where
  steps : ℕ
  func : α
  since : ℕ
  deriving DecidableEq, Repr

/-- What a `timer_handler` is doing with `m_timer_remain_steps`. -/
inductive TimerStep
  /-- It was 0: `step_timeout` is called, and the interval stored after it. -/
  | timeout
  /-- It was not 0. -/
  | stepping
  /-- `--m_timer_remain_steps` has read it. -/
  | decrementing (remain : UInt64)
  deriving DecidableEq, Repr

structure WavyServer (α : Type) where
  timerIntervalSteps : UInt64
  timerRemainSteps : UInt64
  /-- The number of calls of `step_timeout`. -/
  timeouts : ℕ
  /-- The `timer_handler`s that have tested `m_timer_remain_steps`. -/
  timing : List TimerStep
  /-- The number of those that are through with it and have not come to `m_do_after_mutex`. -/
  entered : ℕ
  doAfter : List (DoAfterEntry α)
  /-- What each call of `step_do_after` has left in `fire`, the first call first. -/
  fire : List (List α)
  asked : List (DoAfter α)
  /-- The functions that were called, each by the `step_do_after` of this number. -/
  called : List (ℕ × α)

namespace WavyServer

variable {α : Type}

/-- `start_timeout_step`. -/
def init (intervalUsec : UInt64) : WavyServer α where
  timerIntervalSteps := intervalUsec / timerPrecisionUsec
  timerRemainSteps := intervalUsec / timerPrecisionUsec
  timeouts := 0
  timing := []
  entered := 0
  doAfter := []
  fire := []
  asked := []
  called := []

/-- `do_after`. -/
def ask (s : WavyServer α) (steps : ℕ) (func : α) : WavyServer α :=
  { s with
    doAfter := s.doAfter ++ [⟨steps, func⟩]
    asked := s.asked ++ [⟨steps, func, s.fire.length⟩] }

/-- The test of `timer_handler`. -/
def timerHandler (s : WavyServer α) : WavyServer α :=
  if s.timerRemainSteps = 0 then
    { s with timeouts := s.timeouts + 1, timing := s.timing ++ [.timeout] }
  else { s with timing := s.timing ++ [.stepping] }

/-- The `timer_handler` of number `k` stores `m_timer_remain_steps`. -/
def store (s : WavyServer α) (k : ℕ) (remain : UInt64) : WavyServer α :=
  { s with
    timerRemainSteps := remain
    timing := s.timing.eraseIdx k
    entered := s.entered + 1 }

/-- The `timer_handler` of number `k` goes on. -/
def timerStep (s : WavyServer α) (k : ℕ) : Option (WavyServer α) :=
  match s.timing[k]? with
  | some .timeout => some (s.store k s.timerIntervalSteps)
  | some .stepping => some { s with timing := s.timing.set k (.decrementing s.timerRemainSteps) }
  | some (.decrementing remain) => some (s.store k (remain - 1))
  | none => none

/-- The loop over `m_do_after`: what goes to `fire`, and what stays. -/
def splice : List (DoAfterEntry α) → List α × List (DoAfterEntry α)
  | [] => ([], [])
  | e :: es =>
    if e.remainSteps = 0 then (e.func :: (splice es).1, (splice es).2)
    else ((splice es).1, { e with remainSteps := e.remainSteps - 1 } :: (splice es).2)

/-- `step_do_after` under `m_do_after_mutex`. -/
def stepDoAfter (s : WavyServer α) : Option (WavyServer α) :=
  if s.entered = 0 then none
  else some
    { s with
      entered := s.entered - 1
      doAfter := (splice s.doAfter).2
      fire := s.fire ++ [(splice s.doAfter).1] }

/-- The `step_do_after` of number `k` calls its next function. -/
def call (s : WavyServer α) (k : ℕ) : Option (α × WavyServer α) :=
  match s.fire[k]? with
  | some (func :: rest) =>
    some (func, { s with fire := s.fire.set k rest, called := s.called ++ [(k, func)] })
  | _ => none

inductive Act (α : Type)
  | doAfter (steps : ℕ) (func : α)
  | timerHandler
  | timerStep (k : ℕ)
  | stepDoAfter
  | call (k : ℕ)
  deriving DecidableEq, Repr

def step (s : WavyServer α) : Act α → Option (WavyServer α)
  | .doAfter steps func => some (s.ask steps func)
  | .timerHandler => some s.timerHandler
  | .timerStep k => s.timerStep k
  | .stepDoAfter => s.stepDoAfter
  | .call k => (s.call k).map Prod.snd

end WavyServer

end Kumofs
