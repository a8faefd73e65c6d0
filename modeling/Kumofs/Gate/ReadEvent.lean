import Kumofs.Gate.Cloudy
import Kumofs.Gate.StreamBuffer

/-!
# Reading a binary connection

`handler::read_event` of `gate/memcache_binary.cc` and of `gate/cloudy.cc`: the frames that are in
the buffer after a read are dispatched one after another, and the callback of a frame may write to
the buffer. An exception closes the connection.
-/

namespace Kumofs.Gate

open Memproto

/-- The gates that read with `memproto`. -/
inductive BinaryGate
  | memcacheBinary (o : Options)
  | cloudy
  deriving DecidableEq

/-- `MEMPROTO_INITIAL_ALLOCATION_SIZE` and `CLOUDY_INITIAL_ALLOCATION_SIZE`. -/
def initialAllocationSize : ℕ := 32 * 1024

/-- `MEMPROTO_RESERVE_SIZE` and `CLOUDY_RESERVE_SIZE`. -/
def binaryReserveSize : ℕ := 4 * 1024

/-- How a callback ends, with the memory from `data()` on as it leaves it. -/
inductive Returned
  /-- Memory was read or written where there is none. -/
  | outside
  | throws
  | done (mem : Bytes)
  deriving DecidableEq

namespace BinaryGate

/-- The bytes of a region. -/
def bytes (mem : Bytes) (r : Region) : Option Bytes := Memproto.read mem r.start r.len

/-- What a handler sees of a call. The other callbacks are set by no gate. -/
def request (mem : Bytes) (c : Call) : Option Binary.Request :=
  let h : Binary.Header := ⟨c.header.opcode, c.header.opaqueId, c.header.cas⟩
  match c.args with
  | .key k => (bytes mem k).map (.getx h)
  | .store k v flags expiration => do
    let key ← bytes mem k
    let val ← bytes mem v
    some (.set h key val flags expiration)
  | .keyExpiration k expiration => (bytes mem k).map fun key => .delete h key expiration
  | .plain => some (.noop h)
  | .expiration expiration => some (.flush h expiration)
  | .count _ _ _ _ => none
  | .extend _ _ => none

/-- What is written in place before the value: the flags and, before them, the time. -/
def written (g : BinaryGate) (systemTime flags expiration : UInt32) : Bytes :=
  match g with
  | .memcacheBinary o => envelope o systemTime flags.toUInt16 expiration []
  | .cloudy => []

def callback : BinaryGate → ℕ → Bool
  | .memcacheBinary _ => Memproto.memcacheBinary
  | .cloudy => Memproto.cloudy

/-- The handler throws. -/
def rejects (g : BinaryGate) (systemTime : UInt32) (r : Binary.Request) : Bool :=
  match g with
  | .memcacheBinary o => (Binary.handle o systemTime r).isNone
  | .cloudy => (Cloudy.handle r).isNone

/-- The handler of a call, on the memory from `data()` on. -/
def handler (g : BinaryGate) (systemTime : UInt32) (mem : Bytes) (c : Call) : Returned :=
  match request mem c with
  | none => .outside
  | some r =>
    if g.rejects systemTime r then .throws
    else
      match c.args with
      | .store _ v flags expiration =>
        match writeBefore mem v.start (g.written systemTime flags expiration) with
        | none => .outside
        | some mem => .done mem
      | _ => .done mem

end BinaryGate

inductive Status
  | running
  | closed
  /-- Memory was read or written where there is none. -/
  | undefined
  deriving DecidableEq

structure BinaryConn where
  buffer : StreamBuffer
  /-- The frames that `memproto_dispatch` was called for. -/
  dispatched : List Bytes
  status : Status
  deriving DecidableEq

namespace BinaryConn

def start : BinaryConn := ⟨.init initialAllocationSize, [], .running⟩

/-- A frame that is found is in the data. -/
theorem execute_le {mem : Bytes} {size p n : ℕ} (h : execute mem size 0 = some (.frame p n))
    (hs : size < 2 ^ 64) : 0 < n ∧ n ≤ size := by
  have hsub : sizeSub size 0 = size := by
    unfold sizeSub
    omega
  unfold execute at h
  simp only [hsub] at h
  split_ifs at h with hlen
  · cases h
  · simp only [Option.bind_eq_bind, Option.bind_eq_some_iff] at h
    obtain ⟨hd, -, h⟩ := h
    split_ifs at h with hbody hmagic
    · cases h
    · cases h
    · cases h
      unfold headerSize at hlen hbody ⊢
      omega

theorem dataSize_lt (b : StreamBuffer) : b.dataSize < 2 ^ 64 := Nat.mod_lt _ (by decide)

theorem dataSize_dataUsed {b : StreamBuffer} {n : ℕ} (h : n ≤ b.dataSize) :
    (b.dataUsed n).dataSize = b.dataSize - n := by
  unfold StreamBuffer.dataSize StreamBuffer.dataUsed sizeSub sizeAdd at *
  simp only []
  omega

/-- The frame of `n` bytes at the head of the data is dispatched; and whether the loop goes on. The
request of every handler that returns holds the block until it is answered. -/
def serve (g : BinaryGate) (systemTime : UInt32) (s : BinaryConn) (p n : ℕ) : BinaryConn × Bool :=
  let mem := s.buffer.behind
  let used := s.buffer.dataUsed n
  let s' : BinaryConn := ⟨used, s.dispatched ++ [mem.take n], .running⟩
  match dispatch g.callback mem p with
  | none => ({ s' with status := .undefined }, false)
  | some (.reject _) => ({ s' with status := .closed }, false)
  | some (.call c) =>
    match g.handler systemTime mem c with
    | .outside => ({ s' with status := .undefined }, false)
    | .throws => ({ s' with status := .closed }, false)
    | .done mem' =>
      let buffer := used.releaseTo.setBehind s.buffer.off mem'
      ({ s' with buffer := buffer }, decide (buffer.dataSize > 0))

/-- A round of the loop of `read_event`, and whether another one follows. -/
def round (g : BinaryGate) (systemTime : UInt32) (s : BinaryConn) : BinaryConn × Bool :=
  match execute s.buffer.behind s.buffer.dataSize 0 with
  | none => ({ s with status := .undefined }, false)
  | some .more => (s, false)
  | some .error => ({ s with status := .closed }, false)
  | some (.frame p n) => serve g systemTime s p n

theorem dataSize_serve {g : BinaryGate} {systemTime : UInt32} {s : BinaryConn} {p n : ℕ} :
    (serve g systemTime s p n).1.buffer.dataSize = (s.buffer.dataUsed n).dataSize := by
  unfold serve
  simp only []
  rcases dispatch g.callback s.buffer.behind p with _ | _ | c
  · rfl
  · rfl
  · simp only []
    rcases g.handler systemTime s.buffer.behind c with _ | _ | mem'
    · rfl
    · rfl
    · rfl

theorem round_lt {g : BinaryGate} {systemTime : UInt32} {s : BinaryConn}
    (h : (round g systemTime s).2 = true) :
    (round g systemTime s).1.buffer.dataSize < s.buffer.dataSize := by
  unfold round at h ⊢
  rcases he : execute s.buffer.behind s.buffer.dataSize 0 with _ | _ | _ | ⟨p, n⟩
  · simp [he] at h
  · simp [he] at h
  · simp [he] at h
  · have hn := execute_le he (dataSize_lt s.buffer)
    simp only [dataSize_serve, dataSize_dataUsed hn.2]
    omega

/-- The loop of `read_event`. -/
def loop (g : BinaryGate) (systemTime : UInt32) (s : BinaryConn) : BinaryConn :=
  if _h : (round g systemTime s).2 = true then loop g systemTime (round g systemTime s).1
  else (round g systemTime s).1
  termination_by s.buffer.dataSize
  decreasing_by exact round_lt _h

end BinaryConn

/-- What `read` gives: some bytes, the end of the stream, or -1 with an `errno`. -/
inductive ReadResult
  | bytes (b : Bytes)
  | eof
  | failed (errno : ℕ)
  deriving DecidableEq

namespace BinaryConn

/-- The value of `rl`, which is of type `size_t`. -/
def rl : ReadResult → ℕ
  | .bytes b => b.length
  | .eof => 0
  | .failed _ => 2 ^ 64 - 1

inductive Act
  | readEvent (systemTime : UInt32) (r : ReadResult)
  /-- Requests are answered, and let go of the block. -/
  | answered (n : ℕ)
  deriving DecidableEq

/-- `read_event` with a buffer that has room. `rl <= 0` is only true of 0. -/
def received (g : BinaryGate) (systemTime : UInt32) (s : BinaryConn) (r : ReadResult) :
    BinaryConn :=
  if rl r = 0 then { s with status := .closed }
  else loop g systemTime { s with buffer := s.buffer.bufferConsumed (rl r) }

/-- What `read` writes to the buffer. -/
def fill (b : StreamBuffer) : ReadResult → StreamBuffer
  | .bytes bytes => b.put bytes
  | _ => b

/-- `read` gives at least a byte, and no more than there is room for. -/
def Possible (b : StreamBuffer) : ReadResult → Prop
  | .bytes bytes => bytes ≠ [] ∧ bytes.length ≤ b.free
  | _ => True

instance (b : StreamBuffer) (r : ReadResult) : Decidable (Possible b r) := by
  unfold Possible
  split <;> infer_instance

def step (g : BinaryGate) (s : BinaryConn) : Act → Option BinaryConn
  | .readEvent systemTime r =>
    if s.status ≠ .running then none
    else
      match s.buffer.reserveBuffer binaryReserveSize initialBufferSize with
      | none => some { s with status := .undefined }
      | some b =>
        if Possible b r then some (received g systemTime { s with buffer := fill b r } r) else none
  | .answered n =>
    if n < s.buffer.count then some { s with buffer := s.buffer.decrCount n } else none

end BinaryConn

end Kumofs.Gate
