import Kumofs.Record

/-!
# The binary protocol

`gate/memproto/memproto.c`. A buffer is memory of some length; reading outside of it is undefined,
which is `none` here. A pointer is a place in the buffer, and what a callback is given of the buffer
is a region of it.
-/

namespace Kumofs.Gate.Memproto

/-- `MEMPROTO_HEADER_SIZE`. -/
def headerSize : ℕ := 24

/-- `MEMPROTO_REQUEST`. -/
def request : UInt8 := 0x80

/-- `MEMPROTO_INVALID_ARGUMENT`. -/
def invalidArgument : ℤ := -128

/-- The bytes at `p`, `w` of them. -/
def read (data : Bytes) (p w : ℕ) : Option Bytes :=
  if p + w ≤ data.length then some ((data.drop p).take w) else none

/-- `ntohl` of the four bytes at `p`. -/
def readBe32 (data : Bytes) (p : ℕ) : Option UInt32 :=
  (read data p 4).map fun b => UInt32.ofNat (ofBe b)

/-- `memproto_be64h` of the eight bytes at `p`. -/
def readBe64 (data : Bytes) (p : ℕ) : Option UInt64 :=
  (read data p 8).map fun b => Endian.swap64 (Record.load64 b)

/-- What a header holds. -/
structure Header where
  magic : UInt8
  opcode : UInt8
  keylen : UInt16
  extralen : UInt8
  dataType : UInt8
  reserved : UInt16
  bodylen : UInt32
  opaqueId : UInt32
  cas : UInt64
  deriving DecidableEq, Repr

/-- `MEMPROTO_MAGIC` and the macros behind it, of the bytes of a header. -/
def Header.parse (h : Bytes) : Header where
  magic := h.getD 0 0
  opcode := h.getD 1 0
  keylen := UInt16.ofNat (ofBe ((h.drop 2).take 2))
  extralen := h.getD 4 0
  dataType := h.getD 5 0
  reserved := UInt16.ofNat (ofBe ((h.drop 6).take 2))
  bodylen := UInt32.ofNat (ofBe ((h.drop 8).take 4))
  opaqueId := UInt32.ofNat (ofBe ((h.drop 12).take 4))
  cas := Endian.swap64 (Record.load64 (h.drop 16))

/-- The header at a place of the buffer. -/
def header (data : Bytes) (p : ℕ) : Option Header := (read data p headerSize).map Header.parse

/-- What `memproto_parser_execute` returns: 0, -1, or 1 with `ctx->header` and the new offset. -/
inductive Parsed
  | more
  | error
  | frame (header off : ℕ)
  deriving DecidableEq, Repr

/-- A difference of two numbers of type `size_t`. -/
def sizeSub (a b : ℕ) : ℕ := (2 ^ 64 - b % 2 ^ 64 + a) % 2 ^ 64

/-- `memproto_parser_execute`. -/
def execute (data : Bytes) (datalen off : ℕ) : Option Parsed :=
  let region := sizeSub datalen off
  if region < headerSize then some .more
  else do
    let h ← header data off
    if region - headerSize < h.bodylen.toNat then some .more
    else if h.magic ≠ request then some .error
    else some (.frame off (off + headerSize + h.bodylen.toNat))

/-- A part of the buffer: where it starts, and its bytes. -/
structure Region where
  start : ℕ
  len : ℕ
  deriving DecidableEq, Repr

/-- What a callback is given besides the header, by its type. -/
inductive Args
  | key (key : Region)
  | keyExpiration (key : Region) (expiration : UInt32)
  | expiration (expiration : UInt32)
  | store (key val : Region) (flags expiration : UInt32)
  | count (key : Region) (amount initial : UInt64) (expiration : UInt32)
  | plain
  | extend (key val : Region)
  deriving DecidableEq, Repr

/-- A call of a callback: its place in `ctx->callback`, and the extras that are read for it. -/
structure Call where
  slot : ℕ
  header : Header
  extra : Region
  args : Args
  deriving DecidableEq, Repr

/-- What `memproto_dispatch` does: a value that is not positive, or a call and 1. -/
inductive Dispatched
  | reject (ret : ℤ)
  | call (c : Call)
  deriving DecidableEq, Repr

namespace Header

variable (h : Header) (p : ℕ)

/-- `key`, for the header at `p`. -/
def key : Region := ⟨p + headerSize + h.extralen.toNat, h.keylen.toNat⟩

/-- `vallen`. -/
def vallen : UInt32 := h.bodylen - h.extralen.toUInt32 - h.keylen.toUInt32

/-- `val`. -/
def val : Region :=
  ⟨p + headerSize + h.extralen.toNat + h.keylen.toNat, h.vallen.toNat⟩

/-! The cases of `memproto_dispatch`. What is called comes with the number of bytes of the extras
that are read for it; there is none where the arguments are invalid. -/

/-- `GET`, `GETQ`, `GETK` and `GETKQ`. -/
def caseGet : Option (ℕ × Args) :=
  if h.extralen ≠ 0 then none
  else if h.vallen ≠ 0 then none
  else if h.keylen = 0 then none
  else some (0, .key (h.key p))

/-- `DELETE`. -/
def caseDelete (data : Bytes) : Option (Option (ℕ × Args)) :=
  if h.keylen = 0 then some none
  else if h.vallen ≠ 0 then some none
  else if h.extralen = 0 then some (some (0, .keyExpiration (h.key p) 0))
  else if h.extralen = 4 then
    (readBe32 data (p + headerSize)).map fun e => some (4, .keyExpiration (h.key p) e)
  else some none

/-- `FLUSH`. -/
def caseFlush (data : Bytes) : Option (Option (ℕ × Args)) :=
  if h.keylen ≠ 0 then some none
  else if h.vallen ≠ 0 then some none
  else if h.extralen = 0 then some (some (0, .expiration 0))
  else if h.extralen = 4 then
    (readBe32 data (p + headerSize)).map fun e => some (4, .expiration e)
  else some none

/-- `SET`, `ADD` and `REPLACE`. -/
def caseStore (data : Bytes) : Option (Option (ℕ × Args)) :=
  if h.keylen = 0 then some none
  else if h.extralen ≠ 8 then some none
  else do
    let flags ← readBe32 data (p + headerSize)
    let expiration ← readBe32 data (p + headerSize + 4)
    some (some (8, .store (h.key p) (h.val p) flags expiration))

/-- `INCREMENT` and `DECREMENT`. -/
def caseCount (data : Bytes) : Option (Option (ℕ × Args)) :=
  if h.extralen ≠ 20 then some none
  else if h.keylen = 0 then some none
  else if h.vallen ≠ 0 then some none
  else do
    let amount ← readBe64 data (p + headerSize)
    let initial ← readBe64 data (p + headerSize + 8)
    -- the macro of 64 bits around a number of 32
    let expiration ← (read data (p + headerSize + 16) 4).map fun b =>
      (Endian.swap64 (UInt64.ofNat (Endian.value b))).toUInt32
    some (some (20, .count (h.key p) amount initial expiration))

/-- `QUIT`, `NOOP` and `VERSION`. -/
def casePlain : Option (ℕ × Args) :=
  if h.keylen ≠ 0 then none
  else if h.extralen ≠ 0 then none
  else if h.vallen ≠ 0 then none
  else some (0, .plain)

/-- `APPEND` and `PREPEND`. -/
def caseExtend : Option (ℕ × Args) :=
  if h.keylen = 0 then none
  else if h.extralen ≠ 0 then none
  else some (0, .extend (h.key p) (h.val p))

/-- How a case ends. -/
def conclude : Option (ℕ × Args) → Dispatched
  | none => .reject invalidArgument
  | some r => .call ⟨h.opcode.toNat, h, ⟨p + headerSize, r.1⟩, r.2⟩

end Header

/-- `memproto_dispatch`, for the header at `p`. `callback` tells which places of `ctx->callback` are
set, and what is read of the memory behind it. -/
def dispatch (callback : ℕ → Bool) (data : Bytes) (p : ℕ) : Option Dispatched := do
  let h ← header data p
  let cmd := h.opcode.toNat
  if !callback cmd then some (.reject (-cmd))
  else if cmd = 0x00 ∨ cmd = 0x09 ∨ cmd = 0x0c ∨ cmd = 0x0d then
    some (h.conclude p (h.caseGet p))
  else if cmd = 0x04 then (h.caseDelete p data).map (h.conclude p)
  else if cmd = 0x08 then (h.caseFlush p data).map (h.conclude p)
  else if cmd = 0x01 ∨ cmd = 0x02 ∨ cmd = 0x03 then (h.caseStore p data).map (h.conclude p)
  else if cmd = 0x05 ∨ cmd = 0x06 then (h.caseCount p data).map (h.conclude p)
  else if cmd = 0x07 ∨ cmd = 0x0a ∨ cmd = 0x0b then some (h.conclude p h.casePlain)
  else if cmd = 0x0e ∨ cmd = 0x0f then some (h.conclude p (h.caseExtend p))
  else some (.reject (-cmd))

/-- The places that `gate/memcache_binary.cc` sets: get, set, replace, delete, flush, getq, noop,
getk and getkq. -/
def memcacheBinary (slot : ℕ) : Bool :=
  slot ∈ [0x00, 0x01, 0x03, 0x04, 0x08, 0x09, 0x0a, 0x0c, 0x0d]

/-- The places that `gate/cloudy.cc` sets: get, set, delete, getq, getk and getkq. -/
def cloudy (slot : ℕ) : Bool := slot ∈ [0x00, 0x01, 0x04, 0x09, 0x0c, 0x0d]

end Kumofs.Gate.Memproto
