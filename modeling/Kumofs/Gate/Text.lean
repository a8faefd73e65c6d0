import Kumofs.Gate.Interface
import Kumofs.Lib.Run
import Mathlib.Logic.Function.Basic

/-!
# The memcache text gate

`gate/memcache_text.cc`. A connection hands each command to the gateway, or answers it at once; the
callback of a request writes its reply to the socket as soon as it is called. A command for several
keys is one request a key; the last of them to be answered writes the reply of all.

The gateway answers the requests of a connection in any order.
-/

namespace Kumofs.Gate.Text

/-- The bytes of an ASCII text. -/
def text (s : String) : Bytes := s.toList.map fun c => UInt8.ofNat c.toNat

/-- `sprintf` of a number. -/
def dec (n : ℕ) : Bytes := (Nat.toDigits 10 n).map fun c => UInt8.ofNat c.toNat

def notSupportedReply : Bytes := text "CLIENT_ERROR supported\r\n"

def getFailedReply : Bytes := text "SERVER_ERROR get failed\r\n"

def storeFailedReply : Bytes := text "SERVER_ERROR store failed\r\n"

def deleteFailedReply : Bytes := text "SERVER_ERROR delete failed\r\n"

def versionReply : Bytes := text "VERSION kumofs-0.4.13\r\n"

def existsReply : Bytes := text "EXISTS\r\n"

/-! ## The commands -/

/-- `memtext_request_retrieval`: the grammar wants at least one key. -/
structure RequestRetrieval where
  keys : List Bytes
  keys_ne : keys ≠ []
  deriving DecidableEq

/-- `memtext_request_storage`, and `memtext_request_cas` but for its `cas_unique`. -/
structure RequestStorage where
  key : Bytes
  data : Bytes
  flags : UInt16
  exptime : UInt32
  noreply : Bool
  deriving DecidableEq

/-- `memtext_request_delete`. -/
structure RequestDelete where
  key : Bytes
  exptime : UInt32
  noreply : Bool
  deriving DecidableEq

/-- The commands that have a callback; the parser rejects the others. -/
inductive Request
  | get (r : RequestRetrieval)
  | gets (r : RequestRetrieval)
  | set (r : RequestStorage)
  | cas (r : RequestStorage) (casUnique : UInt64)
  | delete (r : RequestDelete)
  | version
  deriving DecidableEq

/-- The command has a `noreply`. -/
def Request.noreply : Request → Bool
  | .get _ | .gets _ | .version => false
  | .set r | .cas r _ => r.noreply
  | .delete r => r.noreply

/-- The `memtext_command`s `request_set_impl` knows. -/
inductive StorageCommand
  | set
  | cas
  | append
  | prepend
  deriving DecidableEq

/-- The callback of a request and the fields of its entry. -/
inductive Callback
  | get (requireCas : Bool)
  | getMulti (requireCas : Bool) (offset : ℕ)
  | set
  | cas
  | delete
  | noreplySet
  | noreplyDelete
  deriving DecidableEq

/-- What the entries of one command for several keys share: `share_count` and the vectors, of which
those not filled have a null base. -/
structure Multi where
  count : ℕ
  vhead : List (Option Bytes)
  deriving DecidableEq

/-- What becomes of a command: a reply at once, or requests to the gateway. -/
inductive Handled
  | reply (b : Bytes)
  | submit (req : Req) (callback : Callback)
  | submitMulti (shared : Multi) (reqs : List (Req × Callback))

def requestGetSingle (r : RequestRetrieval) (requireCas : Bool) : Handled :=
  .submit (.get (r.keys.head r.keys_ne)) (.get requireCas)

def requestGetMulti (r : RequestRetrieval) (requireCas : Bool) : Handled :=
  .submitMulti
    ⟨r.keys.length, List.replicate (2 * r.keys.length) none ++ [some (text "\r\nEND\r\n")]⟩
    (r.keys.zipIdx.map fun k => (.get k.1, .getMulti requireCas (k.2 * 2)))

def requestGet (r : RequestRetrieval) : Handled :=
  if r.keys.length = 1 then requestGetSingle r false else requestGetMulti r false

def requestGets (r : RequestRetrieval) : Handled :=
  if r.keys.length = 1 then requestGetSingle r true else requestGetMulti r true

def requestSetImpl (o : Options) (systemTime : UInt32) (cmd : StorageCommand)
    (r : RequestStorage) (casUnique : UInt64) : Handled :=
  if (!o.saveFlag && r.flags != 0) || (!o.saveExptime && r.exptime != 0) then
    .reply notSupportedReply
  else
    let val :=
      if cmd = .set ∨ cmd = .cas then envelope o systemTime r.flags r.exptime r.data else r.data
    let callback := if r.noreply then .noreplySet else .set
    match cmd with
    | .set => .submit (.set r.key val (if r.noreply then .setAsync else .set)) callback
    -- whatever the command says of a reply
    | .cas => .submit (.set r.key val (.cas casUnique)) .cas
    | .append => .submit (.set r.key val .append) callback
    | .prepend => .submit (.set r.key val .prepend) callback

def requestDelete (r : RequestDelete) : Handled :=
  if r.exptime ≠ 0 then .reply notSupportedReply
  else if r.noreply then .submit (.delete r.key true) .noreplyDelete
  else .submit (.delete r.key false) .delete

/-- The callbacks of the parser. -/
def handle (o : Options) (systemTime : UInt32) : Request → Handled
  | .get r => requestGet r
  | .gets r => requestGets r
  | .set r => requestSetImpl o systemTime .set r 0
  | .cas r casUnique => requestSetImpl o systemTime .cas r casUnique
  | .delete r => requestDelete r
  | .version => .reply versionReply

/-! ## The callbacks -/

/-- What is in a value that was found: the flags, zero where they are not saved, and the data.
`none` where the value is too short or has expired. -/
def found (o : Options) (systemTime : UInt32) (val : Bytes) : Option (UInt16 × Bytes) :=
  if o.saveExptime && (decide (val.length < 4) || expired systemTime val) then none
  else
    let val := if o.saveExptime then val.drop 4 else val
    if o.saveFlag then
      if val.length < 2 then none else some (UInt16.ofNat (ofBe (val.take 2)), val.drop 2)
    else some (0, val)

/-- The line before the data. -/
def header (requireCas : Bool) (key : Bytes) (flags : UInt16) (vallen : ℕ) (clocktime : UInt64) :
    Bytes :=
  text "VALUE " ++ key ++ text " " ++ dec flags.toNat ++ text " " ++ dec vallen ++
    (if requireCas then text " " ++ dec clocktime.toNat else []) ++ text "\r\n"

def responseGet (o : Options) (systemTime : UInt32) (requireCas : Bool) (res : ResGet) : Bytes :=
  if res.error then getFailedReply
  else
    match res.val.bind (found o systemTime) with
    | none => text "END\r\n"
    | some (flags, data) =>
      header requireCas res.key flags data.length res.clocktime ++ data ++ text "\r\nEND\r\n"

/-- `// strip \r\n`: two bytes less of the first vector of a pair that has a base. -/
def strip : List (Option Bytes) → List (Option Bytes)
  | some b :: vs => some (b.drop 2) :: vs
  | none :: v :: vs => none :: v :: strip vs
  | [none] => [none]
  | [] => []

/-- The bytes of vectors. -/
def gather (vs : List (Option Bytes)) : Bytes := vs.flatMap (·.getD [])

/-- The vectors of one key's answer. -/
def fill (o : Options) (systemTime : UInt32) (requireCas : Bool) (offset : ℕ) (res : ResGet)
    (vhead : List (Option Bytes)) : List (Option Bytes) :=
  if res.error then vhead
  else
    match res.val.bind (found o systemTime) with
    | none => vhead
    | some (flags, data) =>
      (vhead.set offset
          (some (text "\r\n" ++ header requireCas res.key flags data.length res.clocktime))).set
        (offset + 1) (some data)

def responseGetMulti (o : Options) (systemTime : UInt32) (requireCas : Bool) (offset : ℕ)
    (res : ResGet) (m : Multi) : Multi × Option Bytes :=
  let vhead := fill o systemTime requireCas offset res m.vhead
  if m.count = 1 then (⟨m.count - 1, strip vhead⟩, some (gather (strip vhead)))
  else (⟨m.count - 1, vhead⟩, none)

def responseSet (res : ResSet) : Bytes :=
  if res.error then storeFailedReply else text "STORED\r\n"

def responseCas (res : ResSet) : Bytes :=
  if res.error then storeFailedReply
  else if !res.casSuccess then existsReply
  else text "STORED\r\n"

def responseDelete (res : ResDelete) : Bytes :=
  if res.error then deleteFailedReply
  else if res.deleted then text "DELETED\r\n"
  else text "NOT FOUND\r\n"

/-- A callback: what its entries share afterwards, and what it sends. `none` is an answer of
another type than the request. -/
def respond (o : Options) (systemTime : UInt32) (m : Multi) :
    Callback → Res → Option (Multi × Option Bytes)
  | .get requireCas, .get res => some (m, some (responseGet o systemTime requireCas res))
  | .getMulti requireCas offset, .get res =>
    some (responseGetMulti o systemTime requireCas offset res m)
  | .set, .set res => some (m, some (responseSet res))
  | .cas, .set res => some (m, some (responseCas res))
  | .delete, .delete res => some (m, some (responseDelete res))
  | .noreplySet, .set _ => some (m, none)
  | .noreplyDelete, .delete _ => some (m, none)
  | _, _ => none

/-! ## The connection -/

/-- A request the gateway has not answered, of the command of that number. -/
structure Pending where
  command : ℕ
  req : Req
  callback : Callback
  deriving DecidableEq

structure Conn where
  /-- `g_system_time`. -/
  systemTime : UInt32
  /-- `m_valid`: the handler is there. -/
  valid : Bool
  /-- The commands, in the order in which they came. -/
  commands : List Request
  pending : List Pending
  /-- What the requests of a command share. -/
  shared : ℕ → Multi
  /-- What was written, each with the number of the command it was written for. -/
  written : List (ℕ × Bytes)

inductive Event
  | command (r : Request)
  /-- The gateway answers the request at that place. -/
  | complete (i : ℕ) (res : Res)
  | updateSystemTime (t : UInt32)
  /-- The connection is closed, and the handler destroyed. -/
  | close
  deriving DecidableEq

namespace Conn

def init (systemTime : UInt32) : Conn := ⟨systemTime, true, [], [], fun _ => ⟨0, []⟩, []⟩

/-- `read_event`, for one command. -/
def command (o : Options) (c : Conn) (r : Request) : Conn :=
  let n := c.commands.length
  let c := { c with commands := c.commands ++ [r] }
  match handle o c.systemTime r with
  | .reply b => { c with written := c.written ++ [(n, b)] }
  | .submit req callback => { c with pending := c.pending ++ [⟨n, req, callback⟩] }
  | .submitMulti m reqs =>
    { c with
      pending := c.pending ++ reqs.map fun x => ⟨n, x.1, x.2⟩
      shared := Function.update c.shared n m }

/-- The callback of a request. `send_data` and `send_datav` write only while the handler is
there. -/
def complete (o : Options) (c : Conn) (i : ℕ) (res : Res) : Option Conn := do
  let p ← c.pending[i]?
  let (m, sent) ← respond o c.systemTime (c.shared p.command) p.callback res
  some { c with
    pending := c.pending.eraseIdx i
    shared := Function.update c.shared p.command m
    written := if c.valid then c.written ++ sent.toList.map (p.command, ·) else c.written }

def step (o : Options) (c : Conn) : Event → Option Conn
  | .command r => if c.valid then some (c.command o r) else none
  | .complete i res => c.complete o i res
  | .updateSystemTime t => some { c with systemTime := t }
  | .close => if c.valid then some { c with valid := false } else none

/-! ## The replies a client waits for -/

/-- The command of that number has no `noreply`. -/
def wantsReply (c : Conn) (n : ℕ) : Bool := c.commands[n]?.any (!·.noreply)

/-- The commands without `noreply`, by number. -/
def due (c : Conn) : List ℕ := (List.range c.commands.length).filter c.wantsReply

/-- The gateway has still to answer a request of that command. -/
def awaits (c : Conn) (n : ℕ) : Bool := c.pending.any (·.command == n)

/-- The commands without `noreply` that have requests at the gateway. -/
def owed (c : Conn) : List ℕ := c.due.filter c.awaits

end Conn

/-- The callback sends nothing. -/
def Callback.silent : Callback → Bool
  | .noreplySet | .noreplyDelete => true
  | _ => false

/-- The requests of a command that are not answered, before one of them is. -/
def Callback.share (m : Multi) : Callback → ℕ
  | .getMulti _ _ => m.count
  | _ => 1

/-- The callback of that request writes. -/
def Conn.writes (c : Conn) (p : Pending) : Bool :=
  !p.callback.silent && p.callback.share (c.shared p.command) == 1

/-- The command asks for what the gate does not save. -/
def Request.unsupported (o : Options) : Request → Bool
  | .set r | .cas r _ =>
    (!o.saveFlag && r.flags != 0) || (!o.saveExptime && r.exptime != 0)
  | .delete r => r.exptime != 0
  | .get _ | .gets _ | .version => false

/-- The command is answered without the gateway. -/
def Request.atOnce (o : Options) (r : Request) : Bool := r == .version || r.unsupported o

/-- A reply is written in its turn: by a callback for the first command that waits for one, at once
only where none does, and never for a command with `noreply`. -/
def InTurn (o : Options) (c : Conn) : Event → Prop
  | .command r => r.atOnce o = true → r.noreply = false ∧ c.owed = []
  | .complete i _ => ∀ p, c.pending[i]? = some p → c.writes p = true →
      c.owed.head? = some p.command
  | .updateSystemTime _ => True
  | .close => False

end Kumofs.Gate.Text
