import Kumofs.Lib.Memory
import Kumofs.Lib.Run
import Kumofs.Record

/-!
# The buffer of a message

`rpc/vrefbuffer.h`. A message is packed by many calls of `write`. Small pieces are copied to memory
of the zone, which are the numbers and the lengths among them that are on the packer's stack; longer
ones are referred to where they are.

What `msgpack::zone::malloc` returns is open, as long as the buffer has nothing there. Others write
to memory meanwhile, but not to what the buffer refers to.
-/

namespace Kumofs.Rpc

/-- `VREFBUFFER_REF_SIZE`. -/
def vrefbufferRefSize : ℕ := 32

structure VrefBuffer where
  mem : Memory
  /-- `m_vec`: where each piece is, and its length. -/
  vec : List (ℕ × ℕ)
  /-- What was given to `write`. -/
  written : Bytes

namespace VrefBuffer

variable (s : VrefBuffer)

def init (mem : Memory) : VrefBuffer := ⟨mem, [], []⟩

def appendRef (buf len : ℕ) : VrefBuffer := { s with vec := s.vec ++ [(buf, len)] }

/-- `append_copy`, where the zone returns `m`. -/
def appendCopy (buf len m : ℕ) : VrefBuffer :=
  let s := { s with mem := s.mem.write m (s.mem.read buf len) }
  match s.vec.getLast? with
  | some (base, n) =>
    if base + n = m then { s with vec := s.vec.dropLast ++ [(base, n + len)] }
    else s.appendRef m len
  | none => s.appendRef m len

def write (buf len m : ℕ) : VrefBuffer :=
  let t := if vrefbufferRefSize < len then s.appendRef buf len else s.appendCopy buf len m
  { t with written := s.written ++ s.mem.read buf len }

/-- The pieces are not in the `n` bytes from `a` on. -/
def apart (a n : ℕ) : Bool := s.vec.all fun v => a + n ≤ v.1 || v.1 + v.2 ≤ a

inductive Act
  | write (buf len m : ℕ)
  /-- Somebody else writes. -/
  | others (a : ℕ) (bytes : Bytes)
  deriving DecidableEq

def step (s : VrefBuffer) : Act → Option VrefBuffer
  | .write buf len m =>
    if len ≤ vrefbufferRefSize → s.apart m len = true then some (s.write buf len m) else none
  | .others a bytes =>
    if s.apart a bytes.length then some { s with mem := s.mem.write a bytes } else none

/-- What `writev` sends. -/
def bytes : Bytes := s.vec.flatMap fun v => s.mem.read v.1 v.2

end VrefBuffer

end Kumofs.Rpc
