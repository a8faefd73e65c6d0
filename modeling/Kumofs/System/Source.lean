import Kumofs.Lib.Endian
import Kumofs.Lib.Memory
import Kumofs.Lib.Run
import Kumofs.System.Garbage

/-!
# Where the tombstones are kept

`mp/source.h` and `mp/source_impl.h`, an allocator that cuts what `std::malloc` gives it into
pieces, and `buffer_queue` of `storage/buffer_queue.h` over it. What it gives out is in a chunk,
behind a `data_t` that points to the chunk; a chunk is given out from its start on, and from its
start again when nothing is left in it.

The `chunk_t`s are records here, and what is behind them is memory. What `std::malloc` returns is
open, as long as no chunk is there. Sizes are those of buffers in memory, so that no sum of them
exceeds a `size_t`.
-/

namespace Kumofs

/-- `sizeof(chunk_t)`. -/
def chunkSize : ℕ := 40

/-- `sizeof(data_t)`. -/
def dataSize : ℕ := 8

/-- The `chunk_t` at `base`. -/
structure Chunk where
  base : ℕ
  free : ℕ
  lots : ℕ
  size : ℕ
  deriving DecidableEq, Repr

namespace Chunk

variable (c : Chunk)

/-- Where the next `data_t` is put. -/
def place : ℕ := c.base + chunkSize + c.size - c.free

/-- The end of what `std::malloc` has returned. -/
def stop : ℕ := c.base + chunkSize + c.size

/-- `f->lots++` and `f->free -= req`. -/
def take (req : ℕ) : Chunk := { c with lots := c.lots + 1, free := c.free - req }

/-- `chunk->lots--`, and `chunk->free = chunk->size` where that was the last. -/
def give : Chunk :=
  { c with lots := c.lots - 1, free := if c.lots - 1 = 0 then c.size else c.free }

end Chunk

/-- Memory that was given out: the chunk it is in, where its `data_t` is, and its size. -/
structure Block where
  chunk : ℕ
  data : ℕ
  size : ℕ
  deriving DecidableEq, Repr

def Block.pointer (b : Block) : ℕ := b.data + dataSize

/-- The parameters of the template. -/
structure SourceConfig where
  estimatedAllocationSize : ℕ
  optimalLotsInChunk : ℕ

/-- `source`, with its lists from `m_free->next` and `m_used->next` on. -/
structure Source where
  freeList : List Chunk
  usedList : List Chunk
  mem : Memory
  /-- What was given out and has not come back. No code reads it. -/
  live : List Block
  /-- What `std::malloc` has returned: where it starts and `chunk_size`. No code reads it. -/
  given : List (ℕ × ℕ)

namespace Source

def init (mem : Memory) : Source := ⟨[], [], mem, [], []⟩

variable (cfg : SourceConfig) (s : Source)

def defaultChunkSize : ℕ := (cfg.estimatedAllocationSize + chunkSize) * cfg.optimalLotsInChunk

/-- `chunk_size` of `expand_free`. -/
def newChunkSize (req : ℕ) : ℕ :=
  if defaultChunkSize cfg < req then req else defaultChunkSize cfg

/-- The chunk is put into `m_used`. -/
def Full (c : Chunk) : Prop := c.free < cfg.estimatedAllocationSize + chunkSize

instance (c : Chunk) : Decidable (Full cfg c) := inferInstanceAs (Decidable (_ < _))

/-- The `data_t` is put at the place that the chunk has next. -/
def place (c : Chunk) (size : ℕ) : Source :=
  { s with
    mem := s.mem.write c.place (Endian.bytes dataSize c.base)
    live := ⟨c.base, c.place, size⟩ :: s.live }

/-- `expand_free`, where `std::malloc` returns `base`. -/
def expandFree (size base : ℕ) : Source × ℕ :=
  let req := size + dataSize
  let n : Chunk := ⟨base, newChunkSize cfg req, 0, newChunkSize cfg req⟩
  let t := { s.place n size with given := (base, n.size) :: s.given }
  (if Full cfg (n.take req) then { t with usedList := n.take req :: s.usedList }
    else { t with freeList := n.take req :: s.freeList }, n.place + dataSize)

/-- `malloc`; `none` where it throws, since `std::malloc` returns `NULL`. -/
def malloc (size : ℕ) (base : Option ℕ) : Option (Source × ℕ) :=
  let req := size + dataSize
  match s.freeList.dropWhile fun f => f.free < req with
  | [] => base.map (s.expandFree cfg size)
  | f :: rest =>
    let front := s.freeList.takeWhile fun f => f.free < req
    let t := s.place f size
    some (if Full cfg (f.take req) then
      { t with freeList := front ++ rest, usedList := f.take req :: s.usedList }
    else { t with freeList := front ++ f.take req :: rest }, f.place + dataSize)

/-- The chunk at an address, with what is before it in a list and behind it. -/
def find (base : ℕ) (l : List Chunk) : Option (List Chunk × Chunk × List Chunk) :=
  match l.dropWhile fun c => c.base ≠ base with
  | [] => none
  | c :: rest => some (l.takeWhile fun c => c.base ≠ base, c, rest)

/-- `free`; `none` where what is before the pointer is not a `data_t`. -/
def free (x : ℕ) : Option Source :=
  let data := x - dataSize
  let base := Endian.value (s.mem.read data dataSize)
  let s := { s with live := s.live.eraseP (·.data = data) }
  match find base s.freeList with
  | some (front, c, rest) =>
    some (if c.give.lots = 0 then { s with freeList := c.give :: (front ++ rest) }
      else { s with freeList := front ++ c.give :: rest })
  | none =>
    (find base s.usedList).map fun (front, c, rest) =>
      if c.give.lots = 0 then
        { s with freeList := c.give :: s.freeList, usedList := front ++ rest }
      else { s with usedList := front ++ c.give :: rest }

/-- `std::malloc` returns memory that no chunk is in. -/
def Fresh (size base : ℕ) : Prop :=
  base + chunkSize + newChunkSize cfg (size + dataSize) < 2 ^ 64 ∧
    ∀ c ∈ s.freeList ++ s.usedList,
      base + chunkSize + newChunkSize cfg (size + dataSize) ≤ c.base ∨ c.stop ≤ base

instance (size base : ℕ) : Decidable (s.Fresh cfg size base) := inferInstanceAs (Decidable (_ ∧ _))

inductive Act
  | malloc (size : ℕ) (base : Option ℕ)
  | free (x : ℕ)
  /-- The caller writes to what it was given at `x`. -/
  | write (x off : ℕ) (bs : Bytes)
  deriving DecidableEq

/-- Pointers that were not given out or have come back are not freed, nor written behind. -/
def step (s : Source) : Act → Option Source
  | .malloc size base =>
    if ∀ b ∈ base, s.Fresh cfg size b then
      some (((s.malloc cfg size base).map Prod.fst).getD s)
    else none
  | .free x => if ∃ b ∈ s.live, b.pointer = x then s.free x else none
  | .write x off bs =>
    if ∃ b ∈ s.live, b.pointer = x ∧ off + bs.length ≤ b.size then
      some { s with mem := s.mem.write (x + off) bs }
    else none

end Source

/-- `buffer_queue`: the pointers and the sizes of its entries. -/
structure SourceQueue where
  totalSize : ℕ
  queue : List (ℕ × ℕ)
  source : Source

namespace SourceQueue

/-- `mp::source<128, 2048>`. -/
def config : SourceConfig := ⟨128, 2048⟩

def init (mem : Memory) : SourceQueue := ⟨0, [], .init mem⟩

variable (q : SourceQueue)

/-- `push`, where `m_queue.push` throws unless `ok`; whether nothing was thrown. -/
def push (buf : Bytes) (base : Option ℕ) (ok : Bool) : Option (SourceQueue × Bool) :=
  match q.source.malloc config buf.length base with
  | none => some (q, false)
  | some (source, data) =>
    let source := { source with mem := source.mem.write data buf }
    if ok then
      some (⟨q.totalSize + buf.length, q.queue ++ [(data, buf.length)], source⟩, true)
    else (source.free data).map fun source => ({ q with source }, false)

/-- The bytes that `front` points to. -/
def front : Option Bytes := q.queue.head?.map fun e => q.source.mem.read e.1 e.2

def pop : Option SourceQueue :=
  match q.queue with
  | [] => none
  | e :: es => (q.source.free e.1).map fun source => ⟨q.totalSize - e.2, es, source⟩

end SourceQueue

namespace BufferQueue

/-- `scoped_clock_key`, as it lies in memory. -/
def Entry.bytes (e : Entry) : Bytes := Endian.bytes 8 e.data.1.m.toNat ++ e.data.2

/-- `scoped_clock_key::wrap`. -/
def wrap (buf : Bytes) : ClockTime × Bytes :=
  (⟨UInt64.ofNat (Endian.value (buf.take 8))⟩, buf.drop 8)

end BufferQueue

namespace SourceQueue

/-- What `Storage::remove` does to `m_garbage`. -/
inductive Act
  | push (rawKey : Bytes) (ct : ClockTime) (base : Option ℕ) (ok : Bool)
  | pop
  deriving DecidableEq

/-- The queue in memory, and the queue as it is meant beside it. -/
def step (s : SourceQueue × BufferQueue) : Act → Option (SourceQueue × BufferQueue)
  | .push rawKey ct base ok =>
    let e := clockKey rawKey ct
    if ∀ b ∈ base, s.1.source.Fresh config e.bytes.length b then
      (s.1.push e.bytes base ok).map fun r => (r.1, if r.2 then s.2.push e else s.2)
    else none
  | .pop => if s.2.front = none then none else s.1.pop.map fun q => (q, s.2.pop)

end SourceQueue

end Kumofs
