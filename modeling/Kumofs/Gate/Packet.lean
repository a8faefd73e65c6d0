import Kumofs.Gate.Memproto

/-!
# A response of the binary protocol, as a client reads it

A header of 24 bytes, and a body of the length it tells, which is the extras, the key and the value.
The header is laid out as that of a request is, with the status for what is reserved there.
-/

namespace Kumofs.Gate

structure Packet where
  header : Memproto.Header
  extra : Bytes
  key : Bytes
  value : Bytes
  deriving DecidableEq

/-- The packet that some bytes are. -/
def Packet.decode (b : Bytes) : Option Packet :=
  if b.length < Memproto.headerSize then none
  else
    let h := Memproto.Header.parse (b.take Memproto.headerSize)
    let body := b.drop Memproto.headerSize
    if body.length ≠ h.bodylen.toNat ∨ body.length < h.extralen.toNat + h.keylen.toNat then none
    else some {
      header := h
      extra := body.take h.extralen.toNat
      key := (body.drop h.extralen.toNat).take h.keylen.toNat
      value := body.drop (h.extralen.toNat + h.keylen.toNat) }

end Kumofs.Gate
