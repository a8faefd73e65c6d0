import Kumofs.Gate.Memproto

/-!
# The buffer of a connection

`mp/stream_buffer_impl.h`. The buffer is a block of memory that starts with the number of its
references. What was read of the stream is in `[off, used)`, behind it there is room for `free` bytes,
and a request that is still answered holds a reference to the blocks its key and value are in. The
sizes are of type `size_t`.
-/

namespace Kumofs.Gate

/-- `sizeof(count_t)`. -/
def countSize : ℕ := 4

/-- A sum of two numbers of type `size_t`. -/
def sizeAdd (a b : ℕ) : ℕ := (a + b) % 2 ^ 64

/-- `MP_STREAM_BUFFER_INITIAL_BUFFER_SIZE`. -/
def initialBufferSize : ℕ := 8 * 1024

/-- `while(next_size < target) { next_size *= 2; }`. After 64 rounds the size is 0, and stays. -/
def growSize (target : ℕ) : ℕ → ℕ → Option ℕ
  | 0, _ => none
  | rounds + 1, size =>
    if size < target then growSize target rounds (size * 2 % 2 ^ 64) else some size

structure StreamBuffer where
  /-- The block `m_buffer` points to. -/
  mem : Bytes
  count : ℕ
  used : ℕ
  free : ℕ
  off : ℕ
  deriving DecidableEq

namespace StreamBuffer

open Memproto (sizeSub)

/-- Memory as `malloc` gives it, of which nothing is known. -/
def malloc (size : ℕ) : Bytes := List.replicate size 0

/-- `stream_buffer(initial_buffer_size)`. -/
def init (size : ℕ) : StreamBuffer :=
  ⟨malloc (max size countSize), 1, countSize, max size countSize - countSize, countSize⟩

variable (b : StreamBuffer)

def dataSize : ℕ := sizeSub b.used b.off

/-- The memory from `data()` on. -/
def behind : Bytes := b.mem.drop b.off

/-- The data of the buffer. -/
def data : Bytes := b.behind.take b.dataSize

def bufferConsumed (len : ℕ) : StreamBuffer :=
  { b with used := sizeAdd b.used len, free := sizeSub b.free len }

def dataUsed (len : ℕ) : StreamBuffer := { b with off := sizeAdd b.off len }

/-- What `read` does to the memory at `buffer()`. -/
def put (bytes : Bytes) : StreamBuffer :=
  { b with mem := b.mem.take b.used ++ (bytes ++ b.mem.drop (b.used + bytes.length)) }

/-- The memory from `off` on is overwritten. -/
def setBehind (off : ℕ) (mem : Bytes) : StreamBuffer := { b with mem := b.mem.take off ++ mem }

/-- `release_to`, for a request that holds the block until it is answered. -/
def releaseTo : StreamBuffer := { b with count := b.count + 1 }

/-- The destructor of `n` references to the block. -/
def decrCount (n : ℕ) : StreamBuffer := { b with count := b.count - n }

/-- `expand_buffer`: the block is enlarged, or its data moved to a new one where a request needs the
old one. `none` is memory read outside of the block, or a loop without end. -/
def expandBuffer (len initialSize : ℕ) : Option StreamBuffer :=
  if b.off = countSize ∧ b.count = 1 then
    (growSize (sizeAdd len b.used) 65 (sizeAdd b.used b.free * 2 % 2 ^ 64)).map fun nextSize =>
      { b with
        mem := b.mem.take nextSize ++ malloc (nextSize - b.mem.length)
        free := sizeSub nextSize b.used }
  else do
    let notUsed := sizeSub b.used b.off
    let nextSize ← growSize (sizeAdd (sizeAdd len notUsed) countSize) 65 (max initialSize countSize)
    let moved ← Memproto.read b.mem b.off notUsed
    if countSize + notUsed ≤ nextSize then
      some
        { mem := malloc countSize ++ (moved ++ malloc (nextSize - countSize - notUsed))
          count := 1
          used := sizeAdd notUsed countSize
          free := sizeSub nextSize (sizeAdd notUsed countSize)
          off := countSize }
    else none

/-- The buffer is rewound where all of it is used and no request needs it. -/
def rewind : StreamBuffer :=
  if b.used = b.off ∧ b.count = 1 then
    { b with
      free := sizeAdd b.free (sizeSub b.used countSize)
      used := countSize
      off := countSize }
  else b

/-- `reserve_buffer`. -/
def reserveBuffer (len initialSize : ℕ) : Option StreamBuffer :=
  if b.rewind.free < len then b.rewind.expandBuffer len initialSize else some b.rewind

end StreamBuffer

end Kumofs.Gate
