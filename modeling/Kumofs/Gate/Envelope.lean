import Kumofs.Gate.TextConn

/-!
# What a set asks of the gateway

`request_set_impl` of `gate/memcache_text.cc` and `request_set` of `gate/memcache_binary.cc`. The
key and the value of the request that goes to the gateway are pointers; the value is in the buffer,
and starts where the flags and the time were written. `unsigned` and `uint32_t` lengths grow by the
bytes that were written.
-/

namespace Kumofs.Gate

/-- The bytes that go before the data. -/
def Options.room (o : Options) : ℕ :=
  (if o.saveFlag then 2 else 0) + (if o.saveExptime then 4 else 0)

/-- `req.key` and `req.val` of `request_set_impl`, on the buffer as it leaves it. -/
def Memtext.Parsing.asked (o : Options) (m : Parsing) : Option (Bytes × Bytes) := do
  let key ← m.keyBytes 0
  let val ← Memproto.read m.buf (m.ctx.dataPos.toNat - o.room)
    (m.ctx.dataLen + UInt32.ofNat o.room).toNat
  some (key, val)

/-- `req.key` and `req.val` of `request_set`: the key is copied before anything is written. -/
def BinaryGate.asked (o : Options) (mem mem' : Bytes) (k v : Memproto.Region) :
    Option (Bytes × Bytes) := do
  let key ← bytes mem k
  let val ← bytes mem' ⟨v.start - o.room, (UInt32.ofNat v.len + UInt32.ofNat o.room).toNat⟩
  some (key, val)

end Kumofs.Gate
