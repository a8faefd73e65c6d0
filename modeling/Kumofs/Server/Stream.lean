import Kumofs.Lib.Codec
import Kumofs.Storage

/-!
# The replace stream

A copy packs its records into a compressed stream, `stream_accumulator` of
`logic/server/mod_replace_stream.cc` over `zmmap_stream` of `logic/server/zmmap_stream.cc`; the
receiver is `zconnection` of `logic/server/zconnection.h`. The compressor and the serializer are
parameters. `avail_out` has 32 bits; the file is the output so far. The receiver gives `inflate` the
capacity of the unpacker's buffer, a `size_t` of which `avail_out` only takes 32 bits.
-/

namespace Kumofs.Server

open Codec

/-- A record as the storage has it: the lengths have 32 bits. -/
structure Record where
  key : Bytes
  val : Bytes
  key_lt : key.length < 2 ^ 32
  val_lt : val.length < 2 ^ 32
  deriving DecidableEq

/-- What is on the stream. -/
inductive Msg
  | record (r : Record)
  | nil
  deriving DecidableEq

/-- What the serializer writes before an array and before a raw, and for nil; what the unpacker
makes of the bytes in its buffer, with those that are left; and its `buffer_capacity()` at each call
of `inflate`, once it was asked for `ZCONNECTION_RESERVE_SIZE`. -/
structure Msgpack where
  packArray : ℕ → Bytes
  packRaw : ℕ → Bytes
  packNil : Bytes
  execute : Bytes → Option (Msg × Bytes)
  capacity : ℕ → ℕ

namespace Msgpack

/-- The writes of `add`, and of `flush`. -/
def writes (P : Msgpack) : Msg → List Bytes
  | .record r => [P.packArray 2, P.packRaw r.key.length, r.key, P.packRaw r.val.length, r.val]
  | .nil => [P.packNil]

def pack (P : Msgpack) (m : Msg) : Bytes := (P.writes m).flatten

/-- `m_z.avail_out = m_pac.buffer_capacity()`, at the `n`-th call. -/
def availOut (P : Msgpack) (n : ℕ) : UInt32 := UInt32.ofNat (P.capacity n)

end Msgpack

/-- The messages of a stream for these records. -/
def messages (records : List Record) : List Msg := records.map .record ++ [.nil]

section Writer

variable {σ τ : Type*} (Z : Zlib UInt8 σ τ)

/-- `zmmap_stream`; `out` is the map up to `next_out`. -/
structure ZmmapStream (σ : Type*) where
  z : σ
  out : Bytes
  availOut : UInt32

def zmmapStreamInitialSize : ℕ := 1024 * 1024

def zmmapStreamReserveSize : UInt32 := 8 * 1024

namespace ZmmapStream

def init : ZmmapStream σ := ⟨Z.deflateInit, [], UInt32.ofNat zmmapStreamInitialSize⟩

/-- `while(nsize < req) { nsize *= 2; }`; `req` rounds are enough for a size that is not 0. -/
def grow (req : ℕ) : ℕ → ℕ → ℕ
  | 0, nsize => nsize
  | n + 1, nsize => if nsize < req then grow req n (nsize * 2) else nsize

def expandMap (s : ZmmapStream σ) (req : ℕ) : ZmmapStream σ :=
  let used := s.out.length
  let csize := used + s.availOut.toNat
  let nsize := grow req req (csize * 2)
  { s with availOut := UInt32.ofNat (nsize - used) }

/-- What a call of `deflate` leaves. -/
def after (s : ZmmapStream σ) (r : Outcome UInt8 σ) : ZmmapStream σ :=
  ⟨r.state, s.out ++ r.out, s.availOut - UInt32.ofNat r.out.length⟩

/-- The top of the loop of `write`. -/
def reserve (s : ZmmapStream σ) : ZmmapStream σ :=
  if s.availOut < zmmapStreamReserveSize then s.expandMap zmmapStreamInitialSize else s

/-- One round of `write`, with the input that is left. -/
def writeOnce (s : ZmmapStream σ) (input : Bytes) : Except String (ZmmapStream σ × Bytes) :=
  let s := s.reserve
  let r := Z.deflate .noFlush s.z input s.availOut.toNat
  if r.ret = .ok then .ok (s.after r, input.drop r.consumed) else .error "deflate failed"

/-- One round of `flush`; true if the stream has ended. -/
def flushOnce (s : ZmmapStream σ) : Except String (ZmmapStream σ × Bool) :=
  let r := Z.deflate .finish s.z [] s.availOut.toNat
  match r.ret with
  | .streamEnd => .ok (s.after r, true)
  | .ok => .ok ((s.after r).expandMap 0, false)
  | .bufError | .dataError => .error "deflate flush failed"

end ZmmapStream

/-- `stream_accumulator` on its way: in a `write` with some input left and the writes that follow,
in the `flush` of `send`, or with all that is sent. -/
inductive Sender (σ : Type*)
  | writing (s : ZmmapStream σ) (input : Bytes) (next : List Bytes)
  | flushing (s : ZmmapStream σ)
  | sent (bytes : Bytes)
  | failed (e : String)

namespace Sender

/-- `avail_in` has 32 bits. -/
def availIn (buf : Bytes) : Bytes := buf.take (buf.length % 2 ^ 32)

/-- The next of the writes, or else `send`. -/
def write (s : ZmmapStream σ) : List Bytes → Sender σ
  | [] => .flushing s
  | buf :: next => .writing s (availIn buf) next

def start (P : Msgpack) (records : List Record) : Sender σ :=
  write (.init Z) ((messages records).flatMap P.writes)

/-- Up to and with the next call of `deflate`. -/
def step : Sender σ → Sender σ
  | .writing s input next =>
    match s.writeOnce Z input with
    | .error e => .failed e
    | .ok (s, []) => write s next
    | .ok (s, input) => .writing s input next
  | .flushing s =>
    match s.flushOnce Z with
    | .error e => .failed e
    | .ok (s, true) => .sent s.out
    | .ok (s, false) => .flushing s
  | .sent bytes => .sent bytes
  | .failed e => .failed e

/-- `deflate` has room for its output when it is called next, and something to do. -/
def Callable : Sender σ → Prop
  | .writing s input _ =>
    s.reserve.availOut ≠ 0 ∧ (input ≠ [] ∨ Z.pending s.z = true)
  | .flushing s => s.availOut ≠ 0
  | .sent _ | .failed _ => True

instance : DecidablePred (Callable Z)
  | .writing _ _ _ => inferInstanceAs (Decidable (_ ∧ _))
  | .flushing _ => inferInstanceAs (Decidable (_ ≠ _))
  | .sent _ | .failed _ => inferInstanceAs (Decidable True)

end Sender

end Writer

section Reader

variable {σ τ : Type*} (Z : Zlib UInt8 σ τ) (P : Msgpack)

/-- `zconnection`; `buffer` is what the unpacker has not parsed yet. -/
structure Zconnection (τ : Type*) where
  z : τ
  /-- The number of calls of `inflate`. -/
  calls : ℕ
  buffer : Bytes
  submitted : List Msg

/-- What `read` returns. -/
inductive Read
  | again
  | interrupted
  | data (bytes : Bytes)
  deriving DecidableEq

namespace Zconnection

def init : Zconnection τ := ⟨Z.inflateInit, 0, [], []⟩

/-- The loop over the input of one `read`, for so many rounds. -/
def inflateAll : ℕ → Zconnection τ → Bytes → Option (Except String (Zconnection τ))
  | 0, _, _ => none
  | n + 1, c, input =>
    let r := Z.inflate c.z input (P.availOut c.calls).toNat
    if r.ret = .ok ∨ r.ret = .streamEnd then
      let c := { c with z := r.state, calls := c.calls + 1, buffer := c.buffer ++ r.out }
      match input.drop r.consumed with
      | [] => some (.ok c)
      | rest => inflateAll n c rest
    else some (.error "inflate failed")

/-- `while(m_pac.execute())`: a message has at least one byte. -/
def submitAll : ℕ → Zconnection τ → Zconnection τ
  | 0, c => c
  | n + 1, c =>
    match P.execute c.buffer with
    | none => c
    | some (msg, rest) => submitAll n { c with buffer := rest, submitted := c.submitted ++ [msg] }

def readEvent (rounds : ℕ) (c : Zconnection τ) : Read → Option (Except String (Zconnection τ))
  | .again | .interrupted => some (.ok c)
  | .data bytes => (inflateAll Z P rounds c bytes).map fun res =>
    res.map fun c => submitAll P c.buffer.length c

/-- One `read_event` after the other. -/
def receive (rounds : ℕ) : Zconnection τ → List Read → Option (Except String (Zconnection τ))
  | c, [] => some (.ok c)
  | c, r :: rs => (readEvent Z P rounds c r).bind fun
    | .error e => some (.error e)
    | .ok c => receive rounds c rs

/-- The loop of each `read_event` ends, up to the first that throws. -/
def Ends : Zconnection τ → List Read → Prop
  | _, [] => True
  | c, r :: rs => ∃ rounds res, readEvent Z P rounds c r = some res ∧
    ∀ c', res = .ok c' → Ends c' rs

end Zconnection

/-- The bytes that are read; `read` with data returns at least one. -/
def readBytes : List Read → Bytes :=
  List.flatMap fun
    | .data bytes => bytes
    | _ => []

def Read.Nonempty : Read → Prop
  | .data bytes => bytes ≠ []
  | _ => True

end Reader

end Kumofs.Server
