import Kumofs.Gate.StreamBuffer
import Kumofs.Gate.Text

/-!
# The parser of the text protocol

`gate/memproto/memtext.rl`: the grammar as a state machine that takes the stream byte by byte, and
its actions. A mark is the offset of a byte in the buffer; it is kept in the field that the number
behind it is put into later.
-/

namespace Kumofs.Gate.Memtext

open Text (text)

/-- `MEMTEXT_MAX_MULTI_GET`. -/
def maxMultiGet : ℕ := 256

/-- `NUM_BUF_MAX`. -/
def numBufMax : ℕ := 20

/-- `memtext_command`. -/
inductive Command
  | get
  | gets
  | set
  | add
  | replace
  | append
  | prepend
  | cas
  | delete
  | incr
  | decr
  | version
  deriving DecidableEq, Repr

/-- The rules of the grammar. -/
inductive Kind
  | retrieval
  | storage
  | cas
  | delete
  | numeric
  | other
  deriving DecidableEq, Repr

namespace Command

def all : List Command :=
  [.get, .gets, .set, .add, .replace, .append, .prepend, .cas, .delete, .incr, .decr, .version]

def word : Command → Bytes
  | .get => text "get"
  | .gets => text "gets"
  | .set => text "set"
  | .add => text "add"
  | .replace => text "replace"
  | .append => text "append"
  | .prepend => text "prepend"
  | .cas => text "cas"
  | .delete => text "delete"
  | .incr => text "incr"
  | .decr => text "decr"
  | .version => text "version"

def kind : Command → Kind
  | .get | .gets => .retrieval
  | .set | .add | .replace | .append | .prepend => .storage
  | .cas => .cas
  | .delete => .delete
  | .incr | .decr => .numeric
  | .version => .other

end Command

/-- The numbers of a command. -/
inductive Field
  | flags
  | exptime
  | bytes
  | casUnique
  deriving DecidableEq, Repr

/-- The states of the machine, those of a rule where they are in it. -/
inductive State
  | start
  /-- The letters of a command so far. -/
  | word (w : Bytes)
  | beforeKey (k : Kind)
  | inKey (k : Kind)
  /-- Behind the space that ends a key. -/
  | afterKey (k : Kind)
  | beforeNumber (k : Kind) (f : Field)
  /-- The number is `0`. -/
  | zero (k : Kind) (f : Field)
  | digits (k : Kind) (f : Field)
  /-- Behind the space that ends the last number. -/
  | tail (k : Kind)
  /-- So many letters of `noreply`. -/
  | noreply (k : Kind) (n : ℕ)
  /-- `' '*` before the end of a line. -/
  | pad (k : Kind)
  | cr (k : Kind)
  /-- The machine `data`. -/
  | data
  | dataEnd (k : Kind)
  | dataCr (k : Kind)
  | final
  | error
  deriving DecidableEq, Repr

inductive Action
  | reset
  | cmd (c : Command)
  | markKey
  | key
  | incrKey
  | mark (f : Field)
  | number (f : Field)
  | noreply
  | dataStart
  | data
  | doRetrieval
  | doStorage
  | doCas
  | doDelete
  | doNumeric
  | doOther
  deriving DecidableEq, Repr

/-! ## The grammar -/

def cr : UInt8 := 13
def lf : UInt8 := 10
def space : UInt8 := 32

/-- `[^\r \0\n]`. -/
def isKeyByte (b : UInt8) : Bool := b ≠ cr && b ≠ space && b ≠ 0 && b ≠ lf

def isDigit (b : UInt8) : Bool := 48 ≤ b && b ≤ 57

/-- The transition to the state of an error. -/
def reject : List Action × State := ([], .error)

/-- The commands that have these letters. -/
def cmds (w : Bytes) : List Action := (Command.all.filter (·.word = w)).map .cmd

/-- The letters of a command go on, by any of the commands. -/
def goesOn (w : Bytes) : Bool := Command.all.any fun c => w.isPrefixOf c.word

/-- `' '*` is allowed before the end of the line. -/
def Kind.pads : Kind → Bool
  | .retrieval | .storage | .cas => true
  | .delete | .numeric | .other => false

/-- The beginning of a command. -/
def command (b : UInt8) : List Action × State :=
  if goesOn [b] then (.reset :: cmds [b], .word [b]) else reject

/-- The beginning of a number. -/
def number (k : Kind) (f : Field) (b : UInt8) : List Action × State :=
  if b = 48 ∧ f ≠ .bytes then ([.mark f], .zero k f)
  else if b ≠ 48 ∧ isDigit b then ([.mark f], .digits k f)
  else reject

/-- Where a space behind a number leads. -/
def Kind.follow (k : Kind) : Field → State
  | .flags => .beforeNumber k .exptime
  | .exptime => if k = .delete then .tail k else .beforeNumber k .bytes
  | .bytes => if k = .cas then .beforeNumber k .casUnique else .tail k
  | .casUnique => .tail k

/-- The number is the last one, or may be. -/
def Kind.ends : Kind → Field → Bool
  | .storage, .bytes | .cas, .casUnique | .delete, .exptime | .numeric, .casUnique => true
  | _, _ => false

/-- The end of a number. -/
def numberEnd (k : Kind) (f : Field) (b : UInt8) : List Action × State :=
  if b = space then ([.number f], k.follow f)
  else if b = cr ∧ k.ends f then ([.number f], .cr k)
  else reject

/-- The actions at the end of a command. -/
def Kind.finish : Kind → List Action
  | .retrieval => [.doRetrieval]
  | .storage => [.doStorage]
  | .cas => [.doCas]
  | .delete => [.doDelete]
  | .numeric => [.doNumeric]
  | .other => [.doOther]

/-- The transition by a byte: the actions, and the target. -/
def next : State → UInt8 → List Action × State
  | .start, b => command b
  | .word w, b =>
    if goesOn (w ++ [b]) then (cmds (w ++ [b]), .word (w ++ [b]))
    else
      match Command.all.find? (·.word = w) with
      | none => reject
      | some c =>
        if c.kind = .other then if b = cr then ([], .cr .other) else reject
        else if b = space then ([], .beforeKey c.kind)
        else reject
  | .beforeKey k, b =>
    if isKeyByte b then ([.markKey], .inKey k)
    else if b = space ∧ k = .cas then ([], .beforeKey .cas)
    else reject
  | .inKey k, b =>
    if isKeyByte b then ([], .inKey k)
    else if b = space then ([.key], .afterKey k)
    else if b = cr ∧ (k = .retrieval ∨ k = .delete) then ([.key], .cr k)
    else reject
  | .afterKey .retrieval, b =>
    if isKeyByte b then ([.incrKey, .markKey], .inKey .retrieval)
    else if b = space then ([], .pad .retrieval)
    else if b = cr then ([], .cr .retrieval)
    else reject
  | .afterKey .storage, b => number .storage .flags b
  | .afterKey .cas, b => number .cas .flags b
  | .afterKey .delete, b => if b = 110 then ([], .noreply .delete 1) else number .delete .exptime b
  | .afterKey .numeric, b => number .numeric .casUnique b
  | .afterKey .other, _ => reject
  | .beforeNumber k f, b => number k f b
  | .zero k f, b => numberEnd k f b
  | .digits k f, b => if isDigit b then ([], .digits k f) else numberEnd k f b
  | .tail k, b =>
    if b = 110 then ([], .noreply k 1)
    else if b = space ∧ k.pads then ([], .pad k)
    else if b = cr ∧ k.pads then ([], .cr k)
    else reject
  | .noreply k n, b =>
    if (text "noreply")[n]? = some b then ([], .noreply k (n + 1))
    else if n = 7 ∧ b = cr then ([.noreply], .cr k)
    else if n = 7 ∧ b = space ∧ k.pads then ([.noreply], .pad k)
    else reject
  | .pad k, b =>
    if b = space then ([], .pad k)
    else if b = cr then ([], .cr k)
    else reject
  | .cr k, b =>
    if b = lf then
      if k = .storage ∨ k = .cas then ([.dataStart], .dataEnd k) else (k.finish, .final)
    else reject
  | .data, _ => ([.data], .data)
  | .dataEnd k, b => if b = cr then ([], .dataCr k) else reject
  | .dataCr k, b => if b = lf then (k.finish, .final) else reject
  | .final, b => command b
  | .error, _ => reject

/-! ## The actions -/

/-- `memtext_parser`. -/
structure Parser where
  dataCount : UInt64
  cs : State
  stack : List State
  command : Command
  keyPos : ℕ → UInt64
  keyLen : ℕ → UInt32
  keys : UInt32
  flags : UInt64
  exptime : UInt32
  bytes : UInt64
  noreply : Bool
  casUnique : UInt64
  dataPos : UInt64
  dataLen : UInt32

/-- `memtext_init`. -/
def Parser.init : Parser :=
  ⟨0, .start, [], .get, fun _ => 0, fun _ => 0, 0, 0, 0, 0, false, 0, 0, 0⟩

/-- What a callback is called with, by its type, and what is read where the pointers point. -/
inductive Request
  | retrieval (c : Command) (keys : List Bytes)
  | storage (c : Command) (key data : Bytes) (dataLen : UInt32) (flags : UInt16) (exptime : UInt32)
      (noreply : Bool)
  | cas (key data : Bytes) (dataLen : UInt32) (flags : UInt16) (exptime : UInt32) (noreply : Bool)
      (casUnique : UInt64)
  | delete (key : Bytes) (exptime : UInt32) (noreply : Bool)
  | numeric (c : Command) (key : Bytes) (value : UInt64) (noreply : Bool)
  | other (c : Command)
  deriving DecidableEq

/-- The gate whose callbacks are called: `g_save_flag`, `g_save_exptime` and `g_system_time`. -/
structure TextGate where
  options : Options
  systemTime : UInt32

/-- The callbacks that `gate/memcache_text.cc` sets. -/
def TextGate.isSet : Command → Bool
  | .get | .gets | .set | .cas | .delete | .version => true
  | .add | .replace | .append | .prepend | .incr | .decr => false

/-- The bytes that `request_set_impl` writes before the data. -/
def TextGate.written (g : TextGate) (flags : UInt16) (exptime : UInt32) : Bytes :=
  if (!g.options.saveFlag && flags != 0) || (!g.options.saveExptime && exptime != 0) then []
  else envelope g.options g.systemTime flags exptime []

/-- A call of a callback, and the command it is made for. -/
structure Call where
  command : Bytes
  request : Request
  deriving DecidableEq

/-- The parser at work on a buffer, with the calls so far. -/
structure Parsing where
  ctx : Parser
  buf : Bytes
  /-- Where the command starts; the code does not keep it. -/
  start : ℕ
  calls : List Call

inductive Outcome (α : Type)
  | ok (a : α)
  /-- `goto convert_error`, or the state of an error. -/
  | convertError (a : α)
  /-- A store or a read outside of `key_pos` or `key_len`. -/
  | overrun (a : α)
  /-- Memory is read or written where there is none. -/
  | fault (a : α)

def Outcome.andThen {α : Type} (x : Outcome α) (f : α → Outcome α) : Outcome α :=
  match x with
  | .ok a => f a
  | x => x

/-- `isspace`. -/
def isSpace (b : UInt8) : Bool := b = space || (9 ≤ b && b ≤ 13)

/-- The number that digits are, as far as there are digits. -/
def decimal (s : Bytes) : ℕ :=
  (s.takeWhile isDigit).foldl (fun n b => n * 10 + (b.toNat - 48)) 0

/-- `strtoul` and `strtoull` in base 10: a number that is too large is `ULONG_MAX`. -/
def strtoul (s : Bytes) : UInt64 :=
  let s := s.dropWhile isSpace
  let saturated (s : Bytes) : ℕ := min (decimal s) (2 ^ 64 - 1)
  match s with
  | 45 :: s => if decimal s < 2 ^ 64 then -UInt64.ofNat (decimal s) else UInt64.ofNat (2 ^ 64 - 1)
  | 43 :: s => UInt64.ofNat (saturated s)
  | s => UInt64.ofNat (saturated s)

namespace Parser

open Memproto (sizeSub read)

/-- The field of a number, as an offset. -/
def field (c : Parser) : Field → ℕ
  | .flags => c.flags.toNat
  | .exptime => c.exptime.toNat
  | .bytes => c.bytes.toNat
  | .casUnique => c.casUnique.toNat

/-- The field of a number is set, of its width. -/
def setField (c : Parser) (v : UInt64) : Field → Parser
  | .flags => { c with flags := v }
  | .exptime => { c with exptime := v.toUInt32 }
  | .bytes => { c with bytes := v }
  | .casUnique => { c with casUnique := v }

end Parser

namespace Parsing

open Memproto (sizeSub read)

variable (m : Parsing) (p : ℕ)

def setCtx (c : Parser) : Parsing := { m with ctx := c }

/-- `MARK` of a number. -/
def mark (f : Field) : Parsing := m.setCtx (m.ctx.setField (UInt64.ofNat p) f)

/-- `SET_INTEGER`. -/
def setInteger (f : Field) : Outcome Parsing :=
  let pos := m.ctx.field f
  match m.buf[pos]? with
  | none => .fault m
  | some b =>
    if b = 48 then .ok (m.setCtx (m.ctx.setField 0 f))
    else if sizeSub p pos > numBufMax then .convertError m
    else
      match read m.buf pos (sizeSub p pos) with
      | none => .fault m
      | some numbuf =>
        let c := m.ctx.setField (strtoul numbuf) f
        if c.field f = 0 then .convertError (m.setCtx c) else .ok (m.setCtx c)

/-- `mark_key`. -/
def markKey : Outcome Parsing :=
  let i := m.ctx.keys.toNat
  if i < maxMultiGet then
    .ok (m.setCtx
      { m.ctx with keyPos := Function.update m.ctx.keyPos i (UInt64.ofNat p) })
  else .overrun m

/-- `key`. -/
def key : Outcome Parsing :=
  let i := m.ctx.keys.toNat
  if i < maxMultiGet then
    .ok (m.setCtx
      { m.ctx with
        keyLen := Function.update m.ctx.keyLen i
          (UInt32.ofNat (sizeSub p (m.ctx.keyPos i).toNat)) })
  else .overrun m

/-- `incr_key`. -/
def incrKey : Outcome Parsing :=
  let m := m.setCtx { m.ctx with keys := m.ctx.keys + 1 }
  if m.ctx.keys.toNat > maxMultiGet then .convertError m else .ok m

/-- `data`. -/
def data : Parsing :=
  let count := m.ctx.dataCount - 1
  if count = 0 then
    m.setCtx
      { m.ctx with
        dataCount := count
        dataLen := UInt32.ofNat (sizeSub (p + 1) m.ctx.dataPos.toNat)
        cs := m.ctx.stack.headD .error
        stack := m.ctx.stack.tail }
  else m.setCtx { m.ctx with dataCount := count }

/-- `data_start`, with `fcall data`. -/
def dataStart : Parsing :=
  m.setCtx
    { m.ctx with
      dataPos := UInt64.ofNat (p + 1)
      dataCount := m.ctx.bytes
      stack := m.ctx.cs :: m.ctx.stack
      cs := .data }

/-- The bytes of the key of that number. -/
def keyBytes (i : ℕ) : Option Bytes := read m.buf (m.ctx.keyPos i).toNat (m.ctx.keyLen i).toNat

def dataBytes : Option Bytes := read m.buf m.ctx.dataPos.toNat m.ctx.dataLen.toNat

/-- A callback is called with what there is at its pointers, if it is set; those of the gate do not
return an error. -/
def call (r : Option Request) : Outcome Parsing :=
  if !TextGate.isSet m.ctx.command then .convertError m
  else
    match r with
    | none => .fault m
    | some r =>
      .ok { m with calls := m.calls ++ [⟨(m.buf.take (p + 1)).drop m.start, r⟩] }

/-- What `request_set_impl` writes to the buffer. -/
def writeValue (g : TextGate) : Outcome Parsing :=
  match writeBefore m.buf m.ctx.dataPos.toNat (g.written m.ctx.flags.toUInt16 m.ctx.exptime) with
  | none => .fault m
  | some buf => .ok { m with buf := buf }

/-- `do_retrieval`. The offsets of the keys become pointers. -/
def doRetrieval : Outcome Parsing :=
  let m := m.setCtx { m.ctx with keys := m.ctx.keys + 1 }
  if m.ctx.keys.toNat ≤ maxMultiGet then
    m.call p
      (((List.range m.ctx.keys.toNat).mapM m.keyBytes).map (.retrieval m.ctx.command))
  else .overrun m

def doStorage (g : TextGate) : Outcome Parsing :=
  (m.call p (do
    let key ← m.keyBytes 0
    let data ← m.dataBytes
    some (.storage m.ctx.command key data m.ctx.dataLen m.ctx.flags.toUInt16 m.ctx.exptime
      m.ctx.noreply))).andThen (writeValue · g)

def doCas (g : TextGate) : Outcome Parsing :=
  (m.call p (do
    let key ← m.keyBytes 0
    let data ← m.dataBytes
    some (.cas key data m.ctx.dataLen m.ctx.flags.toUInt16 m.ctx.exptime m.ctx.noreply
      m.ctx.casUnique))).andThen (writeValue · g)

def doDelete : Outcome Parsing :=
  m.call p ((m.keyBytes 0).map (.delete · m.ctx.exptime m.ctx.noreply))

def doNumeric : Outcome Parsing :=
  m.call p
    ((m.keyBytes 0).map (.numeric m.ctx.command · m.ctx.casUnique m.ctx.noreply))

def doOther : Outcome Parsing := m.call p (some (.other m.ctx.command))

/-- `reset`. -/
def reset : Parsing :=
  { m with
    ctx := { m.ctx with keys := 0, noreply := false, exptime := 0 }
    start := p }

/-- An action at the byte at `p`. -/
def run (g : TextGate) : Action → Outcome Parsing
  | .reset => .ok (m.reset p)
  | .cmd c => .ok (m.setCtx { m.ctx with command := c })
  | .markKey => m.markKey p
  | .key => m.key p
  | .incrKey => m.incrKey
  | .mark f => .ok (m.mark p f)
  | .number f => m.setInteger p f
  | .noreply => .ok (m.setCtx { m.ctx with noreply := true })
  | .dataStart => .ok (m.dataStart p)
  | .data => .ok (m.data p)
  | .doRetrieval => m.doRetrieval p
  | .doStorage => m.doStorage p g
  | .doCas => m.doCas p g
  | .doDelete => m.doDelete p
  | .doNumeric => m.doNumeric p
  | .doOther => m.doOther p

/-- The actions of a transition. -/
def runAll (g : TextGate) (m : Parsing) (as : List Action) : Outcome Parsing :=
  as.foldl (fun x a => x.andThen fun m => m.run p g a) (.ok m)

/-- The transition by the byte at `p`. -/
def feed (g : TextGate) : Outcome Parsing :=
  match m.buf[p]? with
  | none => .fault m
  | some b =>
    let r := next m.ctx.cs b
    if r.2 = .error then .convertError m
    else (m.setCtx { m.ctx with cs := r.2 }).runAll p g r.1

/-- The transitions by so many bytes. -/
def exec (g : TextGate) : ℕ → ℕ → Parsing → Outcome Parsing
  | 0, _, m => .ok m
  | n + 1, p, m => (m.feed p g).andThen fun m => exec g n (p + 1) m

end Parsing

/-- `memtext_execute`, where it returns: 1 at the end of a command, 0 within one, and -1. -/
def execute (g : TextGate) (m : Parsing) (len off : ℕ) : Outcome Parsing :=
  if len ≤ off then .ok m else m.exec g (len - off) off

/-- What `memtext_execute` returns where there was no error. -/
def ret (c : Parser) : ℕ := if c.cs = .final then 1 else 0

end Kumofs.Gate.Memtext
