import Kumofs.Lib.Endian
import Kumofs.Storage

/-!
# The records on the wire

`DBKey` and `DBValue` of `logic/msgtype.h` as they are packed and unpacked, and the functions of
`storage/storage.h` that read and write the fields of a raw key and a raw value in place. The host
is little-endian, so a number goes through `kumo_be64` on its way to memory and back.
-/

namespace Kumofs.Record

/-- `kumo_be64`. -/
def kumoBe64 (x : UInt64) : UInt64 := Endian.swap64 x

/-- `*(uint64_t*)p`. -/
def load64 (p : Bytes) : UInt64 := UInt64.ofNat (Endian.value (p.take 8))

/-- `*(uint16_t*)p`. -/
def load16 (p : Bytes) : UInt16 := UInt16.ofNat (Endian.value (p.take 2))

/-- `*(uint64_t*)p = x`. -/
def store64 (x : UInt64) (p : Bytes) : Bytes := Endian.bytes 8 x.toNat ++ p.drop 8

/-- `*(uint16_t*)p = x`. -/
def store16 (x : UInt16) (p : Bytes) : Bytes := Endian.bytes 2 x.toNat ++ p.drop 2

def clocktimeOf (rawVal : Bytes) : ClockTime := ⟨kumoBe64 (load64 rawVal)⟩

def clocktimeTo (clocktime : ClockTime) (rawVal : Bytes) : Bytes :=
  store64 (kumoBe64 clocktime.m) rawVal

/-- The 16 bits go through the macro of 64, and 16 of what it gives are kept. -/
def metaOf (rawVal : Bytes) : UInt16 :=
  (kumoBe64 (load16 (rawVal.drop valueClocktimeSize)).toUInt64).toUInt16

def metaTo (meta' : UInt16) (rawVal : Bytes) : Bytes :=
  rawVal.take valueClocktimeSize ++
    store16 (kumoBe64 meta'.toUInt64).toUInt16 (rawVal.drop valueClocktimeSize)

def hashOf (rawKey : Bytes) : UInt64 := kumoBe64 (load64 rawKey)

def hashTo (hash : UInt64) (rawKey : Bytes) : Bytes := store64 (kumoBe64 hash) rawKey

/-- What a packer is given of a raw: the size, and the bytes of its bodies. -/
structure Raw where
  size : ℕ
  body : Bytes
  deriving DecidableEq

/-- The raw as it is unpacked. -/
def Raw.ref (r : Raw) : Bytes := r.body.take r.size

/-- `DBKey`, with its fields. -/
structure DBKey where
  key : Bytes
  hash : UInt64
  deriving DecidableEq

namespace DBKey

/-- `msgpack_pack`. What is in `metabuf` at first is written over. -/
def pack (metabuf : Vector UInt8 keyMetaSize) (k : DBKey) : Raw where
  size := k.key.length + keyMetaSize
  body := hashTo k.hash metabuf.toList ++ k.key

/-- `msgpack_unpack`. `none` is a `type_error`. -/
def unpack (o : Bytes) : Option DBKey :=
  if o.length < keyMetaSize then none else some ⟨o.drop keyMetaSize, hashOf o⟩

end DBKey

/-- `DBValue`, with its fields. -/
structure DBValue where
  val : Bytes
  clocktime : ClockTime
  meta' : UInt16
  deriving DecidableEq

namespace DBValue

/-- `msgpack_pack`. -/
def pack (metabuf : Vector UInt8 valueMetaSize) (v : DBValue) : Raw where
  size := v.val.length + valueMetaSize
  body := metaTo v.meta' (clocktimeTo v.clocktime metabuf.toList) ++ v.val

/-- `msgpack_unpack`. -/
def unpack (o : Bytes) : Option DBValue :=
  if o.length < valueMetaSize then none
  else some ⟨o.drop valueMetaSize, clocktimeOf o, metaOf o⟩

/-- `raw_set_clocktime`: of the value, and of the raw value it has been unpacked from. -/
def rawSetClocktime (v : DBValue) (raw : Bytes) (clocktime : ClockTime) : DBValue × Bytes :=
  ({ v with clocktime := clocktime }, clocktimeTo clocktime raw)

end DBValue

end Kumofs.Record
