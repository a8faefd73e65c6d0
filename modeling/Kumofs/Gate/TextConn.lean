import Kumofs.Gate.Memtext
import Kumofs.Gate.ReadEvent

/-!
# Reading a text connection

`handler::read_event` of `gate/memcache_text.cc`. The parser goes on where it was in the data of the
buffer; when a read ends with a command the data is used, and the offsets start at 0 again. An
exception closes the connection.
-/

namespace Kumofs.Gate

open Memtext

/-- `MEMTEXT_INITIAL_ALLOCATION_SIZE`. -/
def memtextInitialAllocationSize : ℕ := 32 * 1024

/-- `MEMTEXT_RESERVE_SIZE`. -/
def memtextReserveSize : ℕ := 4 * 1024

/-- The addresses of a process have 47 bits: no block is larger. -/
def addressSpace : ℕ := 2 ^ 47

namespace TextConn

inductive Status
  | running
  /-- `parse error`. -/
  | rejected
  | closed
  /-- The parser has left `key_pos` or `key_len`. -/
  | overrun
  /-- Memory was read or written where there is none. -/
  | undefined
  deriving DecidableEq

end TextConn

/-- A connection; `off` is `m_off`, and `start` and `calls` are those of the parser. -/
structure TextConn where
  buffer : StreamBuffer
  ctx : Parser
  off : ℕ
  start : ℕ
  calls : List Memtext.Call
  status : TextConn.Status

/-- The request lives on until it is answered: it is not answered at once. -/
def Memtext.TextGate.holds (g : TextGate) : Request → Bool
  | .retrieval _ _ => true
  | .storage _ _ _ _ flags exptime _ | .cas _ _ _ flags exptime _ _ =>
    !((!g.options.saveFlag && flags != 0) || (!g.options.saveExptime && exptime != 0))
  | .delete _ exptime _ => exptime = 0
  | .numeric _ _ _ _ | .other _ => false

namespace TextConn

def init : TextConn := ⟨.init memtextInitialAllocationSize, .init, 0, 0, [], .running⟩

/-- The parser at work on the memory from `data()` on. -/
def parsing (s : TextConn) : Parsing := ⟨s.ctx, s.buffer.behind, s.start, s.calls⟩

/-- What the parser leaves, with the block held by the requests it has made. -/
def after (s : TextConn) (g : TextGate) (m : Parsing) : TextConn :=
  let held := ((m.calls.drop s.calls.length).filter fun c => g.holds c.request).length
  { s with
    buffer := (StreamBuffer.releaseTo^[held] s.buffer).setBehind s.buffer.off m.buf
    ctx := m.ctx
    start := m.start
    calls := m.calls }

/-- A round of the loop of `read_event`, and whether another one follows. -/
def round (g : TextGate) (s : TextConn) : TextConn × Bool :=
  let len := s.buffer.dataSize
  match execute g s.parsing len s.off with
  | .fault m => ({ s.after g m with status := .undefined }, false)
  | .overrun m => ({ s.after g m with status := .overrun }, false)
  | .convertError m => ({ s.after g m with status := .rejected }, false)
  | .ok m =>
    let s' := s.after g m
    if len ≤ s.off then (s', false)
    else if ret m.ctx = 1 then
      let buffer := s'.buffer.dataUsed len
      ({ s' with buffer := buffer, off := 0 }, decide (buffer.dataSize > 0))
    else ({ s' with off := len }, false)

theorem dataSize_releaseTo (b : StreamBuffer) : ∀ n, (StreamBuffer.releaseTo^[n] b).dataSize =
    b.dataSize ∧ (StreamBuffer.releaseTo^[n] b).off = b.off
  | 0 => ⟨rfl, rfl⟩
  | n + 1 => by
    rw [Function.iterate_succ_apply']
    exact dataSize_releaseTo b n

theorem dataSize_after (s : TextConn) (g : TextGate) (m : Parsing) :
    (s.after g m).buffer.dataSize = s.buffer.dataSize :=
  (dataSize_releaseTo s.buffer _).1

/-- The parser takes all there is: the loop of `read_event` makes one round. -/
theorem round_once (g : TextGate) (s : TextConn) : (round g s).2 = false := by
  unfold round
  simp only []
  rcases execute g s.parsing s.buffer.dataSize s.off with m | m | m | m
  · simp only []
    split_ifs with h1 h2
    · rfl
    · have hsize := @BinaryConn.dataSize_dataUsed (s.after g m).buffer s.buffer.dataSize
        (dataSize_after s g m).ge
      simp [hsize, dataSize_after]
    · rfl
  · rfl
  · rfl
  · rfl

/-- The loop of `read_event`. -/
def loop (g : TextGate) (s : TextConn) : TextConn :=
  if _h : (round g s).2 = true then loop g (round g s).1 else (round g s).1
  termination_by s.buffer.dataSize
  decreasing_by
    rw [round_once] at _h
    cases _h

inductive Act
  | readEvent (systemTime : UInt32) (r : ReadResult)
  /-- `read_event`, where there is no memory for a larger buffer. -/
  | badAlloc
  /-- Requests are answered, and let go of the block. -/
  | answered (n : ℕ)
  deriving DecidableEq

/-- `EAGAIN` and `EINTR`. -/
def again : List ℕ := [11, 4]

/-- What was read is behind the data. -/
def filled (s : TextConn) (b : Bytes) : TextConn :=
  { s with buffer := (s.buffer.put b).bufferConsumed b.length }

/-- `read_event` with a buffer that has room. -/
def received (g : TextGate) (s : TextConn) : ReadResult → TextConn
  | .eof => { s with status := .closed }
  | .failed errno => if errno ∈ again then s else { s with status := .closed }
  | .bytes b => loop g (s.filled b)

def step (o : Options) (s : TextConn) : Act → Option TextConn
  | .readEvent systemTime r =>
    if s.status ≠ .running then none
    else
      match s.buffer.reserveBuffer memtextReserveSize initialBufferSize with
      | none => some { s with status := .undefined }
      | some b =>
        if b.mem.length ≤ addressSpace ∧ BinaryConn.Possible b r then
          some (received ⟨o, systemTime⟩ { s with buffer := b } r)
        else none
  | .badAlloc =>
    if s.status = .running ∧ s.buffer.rewind.free < memtextReserveSize then
      some { s with status := .closed }
    else none
  | .answered n =>
    if n < s.buffer.count then some { s with buffer := s.buffer.decrCount n } else none

end TextConn

end Kumofs.Gate
