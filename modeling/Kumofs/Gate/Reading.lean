import Kumofs.Gate.Memtext

/-!
# The text protocol, by what is written

The grammar of `memtext.rl` with no buffer behind it: what was read of a command is kept as text,
and a call is made of it. A number is what its digits are, as long as its field and the callback's
have room for it.
-/

namespace Kumofs.Gate.Memtext

open Text (text)

/-! ## Numbers -/

/-- What is put into a field of its width. -/
def Field.cast (v : UInt64) : Field → ℕ
  | .exptime => v.toUInt32.toNat
  | .flags | .bytes | .casUnique => v.toNat

/-- What `SET_INTEGER` makes of a number. -/
def value (s : Bytes) : UInt64 := if s.head? = some 48 then 0 else strtoul s

/-- `SET_INTEGER` takes the number. -/
def accepts (f : Field) (s : Bytes) : Bool :=
  s.head? = some 48 || (decide (s.length ≤ numBufMax) && decide (f.cast (strtoul s) ≠ 0))

/-- What is read of a key or of data, whose length is kept in 32 bits. -/
def clip (s : Bytes) : Bytes := s.take (s.length % 2 ^ 32)

/-! ## The reading of a stream -/

structure Reading where
  cs : State
  stack : List State
  command : Command
  /-- The keys that are complete. -/
  keys : List Bytes
  /-- The numbers that are complete. -/
  numbers : Field → Bytes
  noreply : Bool
  /-- The key or the number that goes on. -/
  text : Bytes
  left : UInt64
  data : Bytes
  /-- The command so far. -/
  line : Bytes
  calls : List Call

namespace Reading

def init : Reading := ⟨.start, [], .get, [], fun _ => [], false, [], 0, [], [], []⟩

variable (r : Reading) (b : UInt8)

def key : Bytes := clip (r.keys.headD [])

def flags : UInt16 := (value (r.numbers .flags)).toUInt16

def exptime : UInt32 := (value (r.numbers .exptime)).toUInt32

def casUnique : UInt64 := value (r.numbers .casUnique)

/-- What the callback is called with at the end of a command. -/
def request : Kind → Request
  | .retrieval => .retrieval r.command (r.keys.map clip)
  | .storage =>
    .storage r.command r.key (clip r.data) (UInt32.ofNat r.data.length) r.flags r.exptime r.noreply
  | .cas =>
    .cas r.key (clip r.data) (UInt32.ofNat r.data.length) r.flags r.exptime r.noreply r.casUnique
  | .delete => .delete r.key r.exptime r.noreply
  | .numeric => .numeric r.command r.key r.casUnique r.noreply
  | .other => .other r.command

/-- The command is called, if it has a callback. -/
def call (k : Kind) : Outcome Reading :=
  if TextGate.isSet r.command then
    .ok { r with calls := r.calls ++ [⟨r.line ++ [b], r.request k⟩] }
  else .convertError r

/-- A byte of data; the last one ends it. -/
def datum : Reading :=
  if r.left - 1 = 0 then
    { r with
      data := r.data ++ [b]
      left := r.left - 1
      cs := r.stack.headD .error
      stack := r.stack.tail }
  else { r with data := r.data ++ [b], left := r.left - 1 }

/-- An action at a byte. -/
def act : Action → Outcome Reading
  | .reset =>
    .ok
      { r with
        keys := []
        noreply := false
        numbers := Function.update r.numbers .exptime []
        line := [] }
  | .cmd c => .ok { r with command := c }
  | .markKey => if r.keys.length < maxMultiGet then .ok { r with text := [] } else .overrun r
  | .key => .ok { r with keys := r.keys ++ [r.text] }
  | .incrKey => .ok r
  | .mark _ => .ok { r with text := [] }
  | .number f =>
    if accepts f r.text then .ok { r with numbers := Function.update r.numbers f r.text }
    else .convertError r
  | .noreply => .ok { r with noreply := true }
  | .dataStart =>
    .ok
      { r with
        data := []
        left := value (r.numbers .bytes)
        stack := r.cs :: r.stack
        cs := .data }
  | .data => .ok (r.datum b)
  | .doRetrieval => r.call b .retrieval
  | .doStorage => r.call b .storage
  | .doCas => r.call b .cas
  | .doDelete => r.call b .delete
  | .doNumeric => r.call b .numeric
  | .doOther => r.call b .other

/-- The actions of a transition. -/
def actAll (as : List Action) : Outcome Reading :=
  as.foldl (fun x a => x.andThen fun r => r.act b a) (.ok r)

/-- The byte is read. -/
def push : Reading := { r with text := r.text ++ [b], line := r.line ++ [b] }

/-- The transition by a byte. -/
def feed : Outcome Reading :=
  let t := next r.cs b
  if t.2 = .error then .convertError r
  else (actAll { r with cs := t.2 } b t.1).andThen fun r => .ok (r.push b)

/-- The transitions by the bytes of a stream. -/
def feedAll : Bytes → Reading → Outcome Reading
  | [], r => .ok r
  | b :: bs, r => (r.feed b).andThen (feedAll bs)

end Reading

/-! ## What a command says -/

/-- A byte of a line: a space ends a word. -/
def splitStep (s : List Bytes × Bytes) (b : UInt8) : List Bytes × Bytes :=
  if b = space then if s.2 = [] then s else (s.1 ++ [s.2], [])
  else (s.1, s.2 ++ [b])

/-- The words of a line that have ended, and the one that goes on. -/
def split (line : Bytes) : List Bytes × Bytes := line.foldl splitStep ([], [])

/-- The words of a line. -/
def words (line : Bytes) : List Bytes :=
  (split line).1 ++ if (split line).2 = [] then [] else [(split line).2]

namespace Call

variable (c : Call)

/-- The first line. -/
def header : Bytes := c.command.takeWhile (· ≠ cr)

/-- What comes after the first line, but for the end of its own. -/
def body : Bytes := (c.command.drop (c.header.length + 2)).dropLast.dropLast

/-- The decimal number that a word of the command is. -/
def number (i : ℕ) : ℕ := decimal ((words c.header).getD i [])

/-- The callback is given the numbers that the command says. -/
def Exact : Prop :=
  match c.request with
  | .storage _ _ data len flags exptime _ =>
    flags.toNat = c.number 2 ∧ exptime.toNat = c.number 3 ∧ len.toNat = c.number 4 ∧ data = c.body ∧
      data.length = c.number 4
  | .cas _ data len flags exptime _ casUnique =>
    flags.toNat = c.number 2 ∧ exptime.toNat = c.number 3 ∧ len.toNat = c.number 4 ∧ data = c.body ∧
      data.length = c.number 4 ∧ casUnique.toNat = c.number 5
  | .delete _ exptime _ => exptime.toNat = c.number 2
  | _ => True

/-- The fields that the numbers of the command go to have room for them. -/
def Fits : Prop :=
  match c.request with
  | .storage _ _ _ _ _ _ _ => c.number 2 < 2 ^ 16 ∧ c.number 3 < 2 ^ 32 ∧ c.number 4 < 2 ^ 32
  | .cas _ _ _ _ _ _ _ =>
    c.number 2 < 2 ^ 16 ∧ c.number 3 < 2 ^ 32 ∧ c.number 4 < 2 ^ 32 ∧ c.number 5 < 2 ^ 64
  | .delete _ _ _ => c.number 2 < 2 ^ 32
  | _ => True

instance : Decidable c.Exact := by
  unfold Exact
  split <;> infer_instance

instance : Decidable c.Fits := by
  unfold Fits
  split <;> infer_instance

end Call

end Kumofs.Gate.Memtext
