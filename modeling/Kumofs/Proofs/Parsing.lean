import Kumofs.Proofs.Grammar
import Kumofs.Proofs.StreamBuffer

/-!
# The parser reads what is written

What the parser knows of a command it knows by offsets. They stay right while the buffer grows or is
moved, as nothing before them changes; so the parser on a buffer does what the reading of the stream
does that has no buffer. Only the offset of an `exptime` has 32 bits.
-/

namespace Kumofs.Gate.Memtext

open Memproto (sizeSub sizeSub_eq)

/-! ## Where a text is -/

section Places

variable {t s : Bytes} {q : ℕ} {b : UInt8}

/-- `s` is in `t`, at `q`. -/
def Lies (t : Bytes) (q : ℕ) (s : Bytes) : Prop := ∃ u v, t = u ++ s ++ v ∧ u.length = q

/-- `s` is what `t` has from `q` on. -/
def Since (t : Bytes) (q : ℕ) (s : Bytes) : Prop := ∃ u, t = u ++ s ∧ u.length = q

theorem Since.nil (t : Bytes) : Since t t.length [] := ⟨t, by simp, rfl⟩

theorem Since.push (h : Since t q s) (b : UInt8) : Since (t ++ [b]) q (s ++ [b]) := by
  obtain ⟨u, rfl, rfl⟩ := h
  exact ⟨u, by simp, rfl⟩

theorem Since.length (h : Since t q s) : q + s.length = t.length := by
  obtain ⟨u, rfl, rfl⟩ := h
  simp

theorem Since.lies (h : Since t q s) : Lies t q s := by
  obtain ⟨u, rfl, rfl⟩ := h
  exact ⟨u, [], by simp, rfl⟩

theorem Since.drop (h : Since t q s) : t.drop q = s := by
  obtain ⟨u, rfl, rfl⟩ := h
  simp

theorem Lies.push (h : Lies t q s) (b : UInt8) : Lies (t ++ [b]) q s := by
  obtain ⟨u, v, rfl, rfl⟩ := h
  exact ⟨u, v ++ [b], by simp, rfl⟩

theorem Lies.le (h : Lies t q s) : q + s.length ≤ t.length := by
  obtain ⟨u, v, rfl, rfl⟩ := h
  simp

theorem Lies.getElem? (h : Lies t q s) (hs : s ≠ []) : t[q]? = s.head? := by
  obtain ⟨u, v, rfl, rfl⟩ := h
  obtain ⟨b, s, rfl⟩ := List.exists_cons_of_ne_nil hs
  simp

/-- What is read of a text that lies in the beginning of a buffer. -/
theorem Lies.read {buf : Bytes} {p n : ℕ} (h : Lies (buf.take p) q s) (hn : n ≤ s.length) :
    Memproto.read buf q n = some (s.take n) := by
  obtain ⟨u, v, ht, rfl⟩ := h
  have hbuf : buf = u ++ (s ++ (v ++ buf.drop p)) := by
    rw [← List.append_assoc, ← List.append_assoc, ← ht, List.take_append_drop]
  unfold Memproto.read
  rw [hbuf, if_pos (by simp; omega), List.drop_left' rfl, List.take_append_of_le_length hn]

end Places

/-! ## Where in a command a state is -/

/-- The parser is between commands, before the first key, in a key, behind one, in a number, in the
data or behind it. It is at least `n` bytes behind the only key. -/
inductive Mode
  | idle
  | head
  | key (only : Bool)
  | gap (n : ℕ)
  | number (f : Field) (n : ℕ)
  | data
  | done
  deriving DecidableEq

/-- The bytes between the key and a number. -/
def Field.ahead : Field → ℕ
  | .flags => 1
  | .exptime => 3
  | .bytes => 5
  | .casUnique => 6

/-- The command has data. -/
def Kind.stores : Kind → Bool
  | .storage | .cas => true
  | _ => false

namespace State

def ahead : State → ℕ
  | .afterKey k => if k.stores then 1 else 0
  | .beforeNumber k f => if k.stores then f.ahead else 0
  | .zero k f | .digits k f => if k.stores then f.ahead + 1 else 0
  | .tail k | .noreply k _ | .pad k | .cr k => if k.stores then 7 else 0
  | _ => 0

def mode : State → Mode
  | .start | .final | .error => .idle
  | .word _ | .beforeKey _ | .cr .other => .head
  | .inKey k => .key (k ≠ .retrieval)
  | .zero k f => .number f (State.zero k f).ahead
  | .digits k f => .number f (State.digits k f).ahead
  | .data => .data
  | .dataEnd _ | .dataCr _ => .done
  | s => .gap s.ahead

/-- A command of no key and no number ends with its word. -/
def Proper : State → Prop
  | .beforeKey k | .inKey k | .afterKey k | .beforeNumber k _ | .zero k _ | .digits k _ | .tail k
  | .noreply k _ | .pad k | .dataEnd k | .dataCr k => k ≠ .other
  | _ => True

end State

/-- What a transition does, by where it is. -/
inductive Steps : Mode → List Action → Mode → Prop
  | begin (w : Bytes) : Steps .idle (.reset :: cmds w) .head
  | letter (w : Bytes) : Steps .head (cmds w) .head
  | word : Steps .head [] .head
  | firstKey (only : Bool) : Steps .head [.markKey] (.key only)
  | keyByte (only : Bool) : Steps (.key only) [] (.key only)
  | keyEnd {only : Bool} {n : ℕ} : n ≤ 1 → (only = false → n = 0) →
      Steps (.key only) [.key] (.gap n)
  | nextKey (n : ℕ) : Steps (.gap n) [.incrKey, .markKey] (.key false)
  | between {n n' : ℕ} : n' ≤ n + 1 → Steps (.gap n) [] (.gap n')
  | mark {f : Field} {n n' : ℕ} : n' ≤ n + 1 → Steps (.gap n) [.mark f] (.number f n')
  | digit (f : Field) (n : ℕ) : Steps (.number f n) [] (.number f n)
  | number {f : Field} {n n' : ℕ} : n' ≤ n + 1 → Steps (.number f n) [.number f] (.gap n')
  | noreply {n n' : ℕ} : n' ≤ n + 1 → Steps (.gap n) [.noreply] (.gap n')
  | dataStart {n : ℕ} : 7 ≤ n → Steps (.gap n) [.dataStart] .done
  | data : Steps .data [.data] .data
  | behind : Steps .done [] .done
  | other : Steps .head Kind.other.finish .idle
  | line {k : Kind} (n : ℕ) : k.stores = false → Steps (.gap n) k.finish .idle
  | dataLine (k : Kind) : Steps .done k.finish .idle

theorem mode_cr {k : Kind} (h : k ≠ .other) : (State.cr k).mode = .gap (State.cr k).ahead := by
  cases k <;> first | exact absurd rfl h | rfl

theorem mode_of_begins {s : State} {k : Kind} {f : Field} (h : Begins s k f) (hp : s.Proper) :
    s.mode = .gap s.ahead ∧ k ≠ .other ∧ (State.digits k f).ahead ≤ s.ahead + 1 := by
  cases h with
  | storage => decide
  | cas => decide
  | delete => decide
  | numeric => decide
  | next k f =>
    refine ⟨rfl, hp, ?_⟩
    simp only [State.ahead]
    split_ifs <;> omega

theorem mode_of_ends {s : State} {k : Kind} {f : Field} (h : Ends s k f) (hp : s.Proper) :
    s.mode = .number f (State.digits k f).ahead ∧ k ≠ .other := by
  cases h with
  | zero k f => exact ⟨rfl, hp⟩
  | digits k f => exact ⟨rfl, hp⟩

theorem mode_of_pads {s : State} {k : Kind} (h : Pads s k) (hp : s.Proper) :
    s.mode = .gap s.ahead ∧ k ≠ .other ∧ (State.pad k).ahead ≤ s.ahead + 1 := by
  cases h with
  | retrieval => decide
  | tail _ => exact ⟨rfl, hp, Nat.le_succ _⟩
  | pad k => exact ⟨rfl, hp, Nat.le_succ _⟩

theorem mode_follow {k : Kind} {f : Field} (h : k ≠ .other) : (k.follow f).Proper ∧
    (k.follow f).mode = .gap (k.follow f).ahead ∧
      (k.follow f).ahead ≤ (State.digits k f).ahead + 1 := by
  revert h
  cases k <;> cases f <;> simp [Kind.follow, State.Proper, State.mode, State.ahead, Kind.stores,
    Field.ahead]

theorem mode_cr_of_ends {k : Kind} {f : Field} (h : k.ends f) :
    (State.cr k).mode = .gap (State.cr k).ahead ∧
      (State.cr k).ahead ≤ (State.digits k f).ahead + 1 := by
  revert h
  cases k <;> cases f <;> simp [Kind.ends, State.mode, State.ahead, Kind.stores, Field.ahead]

/-- A transition of the grammar is one of these steps. -/
theorem Moves.steps {s s' : State} {b : UInt8} {as : List Action} (h : Moves s b as s')
    (hp : s.Proper) : s'.Proper ∧ Steps s.mode as s'.mode := by
  cases h with
  | begin hs hg =>
    rcases hs with rfl | rfl <;> exact ⟨trivial, .begin _⟩
  | letter hg => exact ⟨trivial, .letter _⟩
  | other hk => exact ⟨trivial, .word⟩
  | command hk => exact ⟨hk, .word⟩
  | casSpace => exact ⟨hp, .word⟩
  | key hb => exact ⟨hp, .firstKey _⟩
  | keyByte hb => exact ⟨hp, .keyByte _⟩
  | @keySpace k =>
    refine ⟨hp, .keyEnd ?_ ?_⟩
    · simp only [State.ahead]
      split_ifs <;> omega
    · intro h
      obtain rfl : k = .retrieval := by simpa using h
      rfl
  | keyEnd hk =>
    refine ⟨trivial, ?_⟩
    rcases hk with rfl | rfl <;> exact .keyEnd (by decide) (by decide)
  | nextKey hb => exact ⟨(fun h => nomatch h), .nextKey _⟩
  | pad hs =>
    obtain ⟨hmode, hk, hle⟩ := mode_of_pads hs hp
    rw [hmode]
    exact ⟨hk, .between hle⟩
  | lineEnd hs =>
    obtain ⟨hmode, hk, hle⟩ := mode_of_pads hs hp
    rw [hmode, mode_cr hk]
    exact ⟨trivial, .between hle⟩
  | zero hs hf =>
    obtain ⟨hmode, hk, hle⟩ := mode_of_begins hs hp
    rw [hmode]
    exact ⟨hk, .mark hle⟩
  | number hs hd hb =>
    obtain ⟨hmode, hk, hle⟩ := mode_of_begins hs hp
    rw [hmode]
    exact ⟨hk, .mark hle⟩
  | digit hd => exact ⟨hp, .digit _ _⟩
  | numberSpace hs =>
    obtain ⟨hmode, hk⟩ := mode_of_ends hs hp
    obtain ⟨hproper, hmode', hle⟩ := mode_follow (f := _) hk
    rw [hmode, hmode']
    exact ⟨hproper, .number hle⟩
  | numberEnd hs he =>
    obtain ⟨hmode, -⟩ := mode_of_ends hs hp
    obtain ⟨hmode', hle⟩ := mode_cr_of_ends he
    rw [hmode, hmode']
    exact ⟨trivial, .number hle⟩
  | noreply hs =>
    rcases hs with rfl | ⟨rfl, rfl⟩
    · exact ⟨hp, .between (Nat.le_succ _)⟩
    · exact ⟨hp, .between (by decide)⟩
  | noreplyLetter _ => exact ⟨hp, .between (Nat.le_succ _)⟩
  | noreplySpace _ => exact ⟨hp, .noreply (Nat.le_succ _)⟩
  | noreplyEnd =>
    rw [mode_cr hp]
    exact ⟨trivial, .noreply (Nat.le_succ _)⟩
  | dataStart hk =>
    rcases hk with rfl | rfl <;> exact ⟨(fun h => nomatch h), .dataStart (by decide)⟩
  | @line k hk =>
    refine ⟨trivial, ?_⟩
    by_cases ho : k = .other
    · subst ho
      exact .other
    · rw [mode_cr ho]
      refine .line _ ?_
      revert hk
      cases k <;> decide
  | data => exact ⟨trivial, .data⟩
  | dataEnd => exact ⟨hp, .behind⟩
  | dataLine => exact ⟨trivial, .dataLine _⟩

/-! ## What the offsets stand for -/

section

variable (p : ℕ) (m : Parsing) (r : Reading)

/-- The keys that are complete. -/
def KeysLie : Prop := ∀ i k, r.keys[i]? = some k →
  Lies (m.buf.take p) (m.ctx.keyPos i).toNat k ∧ (m.ctx.keyLen i).toNat = k.length % 2 ^ 32

/-- The command that goes on. -/
def LineLies : Prop := Since (m.buf.take p) m.start r.line

/-- Behind a key, with at least `n` bytes behind the first one. -/
structure Keyed (n : ℕ) : Prop where
  keys : KeysLie p m r
  count : m.ctx.keys.toNat + 1 = r.keys.length
  length_le : r.keys.length ≤ maxMultiGet
  room : (m.ctx.keyPos 0).toNat + (r.keys.headD []).length + n ≤ p
  line : LineLies p m r

/-- Where the data starts. -/
structure Stored : Prop where
  keyed : Keyed p m r 0
  room : (m.ctx.keyPos 0).toNat + (r.keys.headD []).length + 8 ≤ m.ctx.dataPos.toNat

def Mode.Agrees : Mode → Prop
  | .idle => True
  | .head => r.keys = [] ∧ m.ctx.keys = 0 ∧ LineLies p m r
  | .key only => KeysLie p m r ∧ m.ctx.keys.toNat = r.keys.length ∧ r.keys.length < maxMultiGet ∧
      (only = true → r.keys = []) ∧
      Since (m.buf.take p) (m.ctx.keyPos m.ctx.keys.toNat).toNat r.text ∧ LineLies p m r
  | .gap n => Keyed p m r n
  | .number f n => Keyed p m r n ∧ Since (m.buf.take p) (m.ctx.field f) r.text ∧ r.text ≠ []
  | .data => Stored p m r ∧ Since (m.buf.take p) m.ctx.dataPos.toNat r.data ∧
      m.ctx.dataCount = r.left ∧ ∃ s stack, r.stack = s :: stack ∧ s.mode = .done ∧ s.Proper
  | .done => Stored p m r ∧ Lies (m.buf.take p) m.ctx.dataPos.toNat r.data ∧
      m.ctx.dataLen = UInt32.ofNat r.data.length

/-- What does not depend on where the parser is. -/
structure Common : Prop where
  cs : m.ctx.cs = r.cs
  stack : m.ctx.stack = r.stack
  command : m.ctx.command = r.command
  noreply : m.ctx.noreply = r.noreply
  calls : m.calls = r.calls
  le : p ≤ m.buf.length
  lt : m.buf.length < 2 ^ 63
  proper : r.cs.Proper

/-- The parser at the offset `p` of its buffer has read what the reading has, and is there. -/
structure Within (md : Mode) : Prop extends Common p m r where
  numbers : ∀ f, (∀ n, md ≠ .number f n) → m.ctx.field f = f.cast (value (r.numbers f))
  agrees : md.Agrees p m r

def Sim : Prop := Within p m r r.cs.mode

end

/-- The parser and the reading get on by a byte, or end alike. -/
def Matches (p : ℕ) (m : Parsing) : Outcome Parsing → Outcome Reading → Prop
  | .ok m', .ok r' => Sim p m' r' ∧ m'.buf.length = m.buf.length ∧ m'.buf.drop p = m.buf.drop p
  | .convertError m', .convertError r' => m'.calls = r'.calls
  | .overrun m', .overrun r' => m'.calls = r'.calls
  | _, _ => False

/-! ## What a byte leaves as it was -/

section

variable {p n n' : ℕ} {m m' : Parsing} {r r' : Reading} {b : UInt8}

/-- The keys are where they were, and the command starts where it did. -/
structure SameKeys (m m' : Parsing) : Prop where
  buf : m'.buf = m.buf
  start : m'.start = m.start
  keyPos : m'.ctx.keyPos = m.ctx.keyPos
  keyLen : m'.ctx.keyLen = m.ctx.keyLen
  keys : m'.ctx.keys = m.ctx.keys

theorem SameKeys.refl (m : Parsing) : SameKeys m m := ⟨rfl, rfl, rfl, rfl, rfl⟩

theorem take_succ (hb : m.buf[p]? = some b) : m.buf.take (p + 1) = m.buf.take p ++ [b] := by
  rw [List.take_add_one, hb]
  rfl

theorem KeysLie.push (h : KeysLie p m r) (hb : m.buf[p]? = some b) (hm : SameKeys m m')
    (hr : r'.keys = r.keys) : KeysLie (p + 1) m' r' := by
  intro i k hk
  obtain ⟨hlies, hlen⟩ := h i k (hr ▸ hk)
  rw [hm.buf, hm.keyPos, hm.keyLen, take_succ hb]
  exact ⟨hlies.push b, hlen⟩

theorem LineLies.push (h : LineLies p m r) (hb : m.buf[p]? = some b) (hbuf : m'.buf = m.buf)
    (hstart : m'.start = m.start) (hr : r'.line = r.line ++ [b]) : LineLies (p + 1) m' r' := by
  unfold LineLies at h ⊢
  rw [hbuf, hstart, hr, take_succ hb]
  exact h.push b

theorem Keyed.push (h : Keyed p m r n) (hb : m.buf[p]? = some b) (hm : SameKeys m m')
    (hkeys : r'.keys = r.keys) (hline : r'.line = r.line ++ [b]) (hn : n' ≤ n + 1) :
    Keyed (p + 1) m' r' n' := by
  have hroom := h.room
  refine ⟨h.keys.push hb hm hkeys, ?_, ?_, ?_, h.line.push hb hm.buf hm.start hline⟩
  · rw [hm.keys, hkeys]
    exact h.count
  · rw [hkeys]
    exact h.length_le
  · rw [hm.keyPos, hkeys]
    omega

theorem Stored.push (h : Stored p m r) (hb : m.buf[p]? = some b) (hm : SameKeys m m')
    (hpos : m'.ctx.dataPos = m.ctx.dataPos) (hkeys : r'.keys = r.keys)
    (hline : r'.line = r.line ++ [b]) : Stored (p + 1) m' r' := by
  refine ⟨h.keyed.push hb hm hkeys hline (Nat.zero_le _), ?_⟩
  rw [hm.keyPos, hkeys, hpos]
  exact h.room

theorem lt_of_getElem? (hb : m.buf[p]? = some b) : p < m.buf.length :=
  (List.getElem?_eq_some_iff.1 hb).1

theorem Common.push (h : Common p m r) (hb : m.buf[p]? = some b) : Common (p + 1) m (r.push b) :=
  ⟨h.cs, h.stack, h.command, h.noreply, h.calls, lt_of_getElem? hb, h.lt, h.proper⟩

theorem length_take (hb : m.buf[p]? = some b) : (m.buf.take p).length = p := by
  have := lt_of_getElem? hb
  rw [List.length_take]
  omega

/-- An offset in the buffer as a `size_t`. -/
theorem toNat_offset (h : Common p m r) (hb : m.buf[p]? = some b) :
    (UInt64.ofNat p).toNat = p ∧ (UInt64.ofNat (p + 1)).toNat = p + 1 := by
  have := lt_of_getElem? hb
  have := h.lt
  rw [UInt64.toNat_ofNat', UInt64.toNat_ofNat']
  omega

theorem field_setField (c : Parser) (v : UInt64) (f : Field) :
    (c.setField v f).field f = f.cast v := by
  cases f <;> rfl

theorem field_setField_of_ne (c : Parser) (v : UInt64) {f f' : Field} (h : f' ≠ f) :
    (c.setField v f).field f' = c.field f' := by
  cases f <;> cases f' <;> first | exact absurd rfl h | rfl

theorem setField_keys (m : Parsing) (v : UInt64) (f : Field) :
    SameKeys m (m.setCtx (m.ctx.setField v f)) := by
  cases f <;> exact ⟨rfl, rfl, rfl, rfl, rfl⟩

theorem Common.setField (h : Common p m r) (v : UInt64) (f : Field) :
    Common p (m.setCtx (m.ctx.setField v f)) r := by
  cases f <;> exact ⟨h.cs, h.stack, h.command, h.noreply, h.calls, h.le, h.lt, h.proper⟩

end

/-! ## The actions -/

section

variable {p : ℕ} {m : Parsing} {r : Reading} {b : UInt8} {md : Mode} {g : TextGate}

/-- The actions of a transition keep the two together. -/
def Fed (g : TextGate) (p : ℕ) (b : UInt8) (m : Parsing) (r : Reading) (as : List Action) : Prop :=
  Matches (p + 1) m (m.runAll p g as) ((r.actAll b as).andThen fun r => .ok (r.push b))

theorem fed_ok {as : List Action} {m' : Parsing} {r' : Reading} (hm : m.runAll p g as = .ok m')
    (hr : r.actAll b as = .ok r') (hbuf : m'.buf = m.buf)
    (h : Within (p + 1) m' (r'.push b) r'.cs.mode) : Fed g p b m r as := by
  unfold Fed
  rw [hm, hr]
  exact ⟨h, by rw [hbuf], by rw [hbuf]⟩

/-- A byte that is marked begins what is read. -/
theorem since_mark (hb : m.buf[p]? = some b) : Since (m.buf.take (p + 1)) p [b] := by
  rw [take_succ hb]
  have := (Since.nil (m.buf.take p)).push b
  rwa [length_take hb] at this

theorem cmds_cases (w : Bytes) : cmds w = [] ∨ ∃ c, cmds w = [.cmd c] := by
  by_cases h : ∃ c : Command, c.word = w
  · obtain ⟨c, rfl⟩ := h
    exact .inr ⟨c, cmds_word c⟩
  · exact .inl (cmds_none fun c hc => h ⟨c, hc⟩)

theorem fed_begin (w : Bytes) (h : Within p m r .idle) (hb : m.buf[p]? = some b)
    (hmode : r.cs.mode = .head) : Fed g p b m r (.reset :: cmds w) := by
  have hline := since_mark hb
  have hnumbers : ∀ f, (m.reset p).ctx.field f =
      f.cast (value (Function.update r.numbers .exptime [] f)) := by
    intro f
    have := h.numbers f (fun n => Mode.noConfusion)
    cases f <;> first | rfl | exact this
  have hc := h.toCommon.push hb
  rcases cmds_cases w with hw | ⟨c, hw⟩
  · rw [hw]
    refine fed_ok rfl rfl rfl
      ⟨⟨hc.cs, hc.stack, hc.command, rfl, hc.calls, hc.le, hc.lt, hc.proper⟩,
      fun f _ => hnumbers f, ?_⟩
    rw [show Reading.cs _ = r.cs from rfl, hmode]
    exact ⟨rfl, rfl, hline⟩
  · rw [hw]
    refine fed_ok rfl rfl rfl ⟨⟨hc.cs, hc.stack, rfl, rfl, hc.calls, hc.le, hc.lt, hc.proper⟩,
      fun f _ => hnumbers f, ?_⟩
    rw [show Reading.cs _ = r.cs from rfl, hmode]
    exact ⟨rfl, rfl, hline⟩

theorem fed_letter (w : Bytes) (h : Within p m r .head) (hb : m.buf[p]? = some b)
    (hmode : r.cs.mode = .head) : Fed g p b m r (cmds w) := by
  have hc := h.toCommon.push hb
  obtain ⟨hkeys, hcount, hline⟩ := h.agrees
  rcases cmds_cases w with hw | ⟨c, hw⟩
  · rw [hw]
    refine fed_ok rfl rfl rfl ⟨hc, fun f _ => h.numbers f fun n => Mode.noConfusion, ?_⟩
    rw [hmode]
    exact ⟨hkeys, hcount, hline.push hb rfl rfl rfl⟩
  · rw [hw]
    refine fed_ok rfl rfl rfl
      ⟨⟨hc.cs, hc.stack, rfl, hc.noreply, hc.calls, hc.le, hc.lt, hc.proper⟩,
      fun f _ => h.numbers f fun n => Mode.noConfusion, ?_⟩
    rw [show Reading.cs _ = r.cs from rfl, hmode]
    exact ⟨hkeys, hcount, hline.push hb rfl rfl rfl⟩

/-- Nothing is done. -/
theorem fed_silent (h : Within p m r md) (hb : m.buf[p]? = some b)
    (hnum : ∀ f, (∀ n, r.cs.mode ≠ .number f n) → ∀ n, md ≠ .number f n)
    (ha : r.cs.mode.Agrees (p + 1) m (r.push b)) : Fed g p b m r [] :=
  fed_ok rfl rfl rfl ⟨h.toCommon.push hb, fun f hf => h.numbers f (hnum f hf), ha⟩

theorem fed_word (h : Within p m r .head) (hb : m.buf[p]? = some b)
    (hmode : r.cs.mode = .head) : Fed g p b m r [] := by
  obtain ⟨hkeys, hcount, hline⟩ := h.agrees
  refine fed_silent h hb (fun f _ n => Mode.noConfusion) ?_
  rw [hmode]
  exact ⟨hkeys, hcount, hline.push hb rfl rfl rfl⟩

theorem fed_keyByte {only : Bool} (h : Within p m r (.key only)) (hb : m.buf[p]? = some b)
    (hmode : r.cs.mode = .key only) : Fed g p b m r [] := by
  obtain ⟨hlie, hcount, hlt, honly, hsince, hline⟩ := h.agrees
  refine fed_silent h hb (fun f _ n => Mode.noConfusion) ?_
  rw [hmode]
  refine ⟨hlie.push hb (.refl m) rfl, hcount, hlt, honly, ?_, hline.push hb rfl rfl rfl⟩
  rw [take_succ hb]
  exact hsince.push b

theorem fed_between {n n' : ℕ} (hn : n' ≤ n + 1) (h : Within p m r (.gap n))
    (hb : m.buf[p]? = some b) (hmode : r.cs.mode = .gap n') : Fed g p b m r [] := by
  have hkeyed : Keyed p m r n := h.agrees
  refine fed_silent h hb (fun f _ n => Mode.noConfusion) ?_
  rw [hmode]
  exact hkeyed.push hb (.refl m) rfl rfl hn

theorem fed_digit {f : Field} {n : ℕ} (h : Within p m r (.number f n))
    (hb : m.buf[p]? = some b) (hmode : r.cs.mode = .number f n) : Fed g p b m r [] := by
  obtain ⟨hkeyed, hsince, hne⟩ := h.agrees
  refine fed_silent h hb (fun f' hf => by rwa [hmode] at hf) ?_
  rw [hmode]
  refine ⟨hkeyed.push hb (.refl m) rfl rfl (Nat.le_succ n), ?_, by simp [Reading.push]⟩
  rw [take_succ hb]
  exact hsince.push b

theorem fed_behind (h : Within p m r .done) (hb : m.buf[p]? = some b)
    (hmode : r.cs.mode = .done) : Fed g p b m r [] := by
  obtain ⟨hstored, hlies, hlen⟩ := h.agrees
  refine fed_silent h hb (fun f _ n => Mode.noConfusion) ?_
  rw [hmode]
  refine ⟨hstored.push hb (.refl m) rfl rfl rfl, ?_, hlen⟩
  rw [take_succ hb]
  exact hlies.push b

theorem fed_noreply {n n' : ℕ} (hn : n' ≤ n + 1) (h : Within p m r (.gap n))
    (hb : m.buf[p]? = some b) (hmode : r.cs.mode = .gap n') : Fed g p b m r [.noreply] := by
  have hkeyed : Keyed p m r n := h.agrees
  have hc := h.toCommon.push hb
  refine fed_ok rfl rfl rfl ⟨⟨hc.cs, hc.stack, hc.command, rfl, hc.calls, hc.le, hc.lt, hc.proper⟩,
    fun f _ => h.numbers f fun n => Mode.noConfusion, ?_⟩
  rw [show Reading.cs _ = r.cs from rfl, hmode]
  exact hkeyed.push hb ⟨rfl, rfl, rfl, rfl, rfl⟩ rfl rfl hn

theorem fed_mark {f : Field} {n n' : ℕ} (hn : n' ≤ n + 1) (h : Within p m r (.gap n))
    (hb : m.buf[p]? = some b) (hmode : r.cs.mode = .number f n')
    (hnear : f = .exptime → p < 2 ^ 32) : Fed g p b m r [.mark f] := by
  have hkeyed : Keyed p m r n := h.agrees
  have hp := (toNat_offset h.toCommon hb).1
  have hfield : (m.mark p f).ctx.field f = p := by
    refine (field_setField m.ctx _ f).trans ?_
    cases f with
    | exptime =>
      have := hnear rfl
      show (UInt64.ofNat p).toUInt32.toNat = p
      rw [UInt64.toNat_toUInt32, hp]
      omega
    | _ => exact hp
  have hsame : SameKeys m (m.mark p f) := setField_keys m _ f
  have hc := (h.toCommon.setField (UInt64.ofNat p) f).push (hsame.buf.symm ▸ hb)
  refine fed_ok rfl rfl hsame.buf ⟨⟨hc.cs, hc.stack, hc.command, hc.noreply, hc.calls, hc.le, hc.lt,
    hc.proper⟩, fun f' hf => ?_, ?_⟩
  · have hne : f' ≠ f := by
      rintro rfl
      exact hf n' hmode
    exact (field_setField_of_ne _ _ hne).trans (h.numbers f' fun n => Mode.noConfusion)
  · rw [show Reading.cs _ = r.cs from rfl, hmode]
    refine ⟨hkeyed.push hb hsame rfl rfl hn, ?_, by simp [Reading.push]⟩
    rw [hfield, hsame.buf]
    exact since_mark hb

/-- A number ends. -/
theorem fed_number {f : Field} {n n' : ℕ} (hn : n' ≤ n + 1) (h : Within p m r (.number f n))
    (hb : m.buf[p]? = some b) (hmode : r.cs.mode = .gap n') : Fed g p b m r [.number f] := by
  obtain ⟨hkeyed, hsince, hne⟩ := h.agrees
  have hlen := hsince.length
  rw [length_take hb] at hlen
  have hlt := lt_of_getElem? hb
  have hmax := h.lt
  have hhead : m.buf[m.ctx.field f]? = r.text.head? := by
    have hpos := List.length_pos_of_ne_nil hne
    rw [← hsince.lies.getElem? hne, List.getElem?_take_of_lt (by omega)]
  have hsub : sizeSub p (m.ctx.field f) = r.text.length := by
    rw [sizeSub_eq (by omega) (by omega)]
    omega
  have hread := hsince.lies.read (Nat.le_refl r.text.length)
  rw [List.take_length] at hread
  obtain ⟨c, hc⟩ : ∃ c, r.text.head? = some c := ⟨_, List.head?_eq_some_head hne⟩
  -- the field is set to what the number stands for
  have hset : ∀ v, v = value r.text → accepts f r.text = true →
      m.setInteger p f = .ok (m.setCtx (m.ctx.setField v f)) → Fed g p b m r [.number f] := by
    intro v hv hacc hok
    have hsame := setField_keys m v f
    have hc := (h.toCommon.setField v f).push (hsame.buf.symm ▸ hb)
    have hact : r.actAll b [.number f] =
        .ok { r with numbers := Function.update r.numbers f r.text } := if_pos hacc
    refine fed_ok hok hact hsame.buf ⟨⟨hc.cs, hc.stack, hc.command, hc.noreply, hc.calls, hc.le,
      hc.lt, hc.proper⟩, fun f' _ => ?_, ?_⟩
    · by_cases hf : f' = f
      · subst hf
        rw [show Reading.numbers _ f' = r.text from Function.update_self _ _ _, ← hv]
        exact field_setField _ _ _
      · rw [show Reading.numbers _ f' = r.numbers f' from Function.update_of_ne hf _ _]
        refine (field_setField_of_ne _ _ hf).trans (h.numbers f' fun n he => hf ?_)
        cases he
        rfl
    · rw [show Reading.cs _ = r.cs from rfl, hmode]
      exact hkeyed.push hb hsame rfl rfl hn
  have hfail : ∀ m', accepts f r.text = false → m.setInteger p f = .convertError m' →
      m'.calls = m.calls → Fed g p b m r [.number f] := by
    intro m' hacc hbad hcalls
    have hact : r.actAll b [.number f] = .convertError r := if_neg (by simp [hacc])
    unfold Fed
    rw [show m.runAll p g [.number f] = .convertError m' from hbad, hact]
    exact hcalls.trans h.calls
  have hint : m.setInteger p f =
      if c = 48 then .ok (m.setCtx (m.ctx.setField 0 f))
      else if r.text.length > numBufMax then .convertError m
      else if f.cast (strtoul r.text) = 0 then
        .convertError (m.setCtx (m.ctx.setField (strtoul r.text) f))
      else .ok (m.setCtx (m.ctx.setField (strtoul r.text) f)) := by
    unfold Parsing.setInteger
    simp only [hhead, hc, hsub, hread, field_setField]
  split_ifs at hint with h48 hmany hzero
  · subst h48
    exact hset 0 (by simp [value, hc]) (by simp [accepts, hc]) hint
  · exact hfail _ (by simp [accepts, hc, h48, Nat.not_le.2 hmany]) hint rfl
  · exact hfail _ (by simp [accepts, hc, h48, hzero]) hint rfl
  · exact hset _ (by simp [value, hc, h48])
      (by simp [accepts, hc, h48, Nat.not_lt.1 hmany, hzero]) hint

/-- A key begins, as the one of that number. -/
theorem KeysLie.markKey (h : KeysLie p m r) (hb : m.buf[p]? = some b)
    (hcount : m.ctx.keys.toNat = r.keys.length) {m' : Parsing} {r' : Reading}
    (hbuf : m'.buf = m.buf) (hlen : m'.ctx.keyLen = m.ctx.keyLen)
    (hpos : m'.ctx.keyPos = Function.update m.ctx.keyPos m.ctx.keys.toNat (UInt64.ofNat p))
    (hkeys : r'.keys = r.keys) : KeysLie (p + 1) m' r' := by
  intro i k hk
  rw [hkeys] at hk
  have hi := (List.getElem?_eq_some_iff.1 hk).1
  have hne : i ≠ m.ctx.keys.toNat := by omega
  obtain ⟨hlies, hl⟩ := h i k hk
  rw [hbuf, hlen, hpos, Function.update_of_ne hne, take_succ hb]
  exact ⟨hlies.push b, hl⟩

theorem fed_firstKey (only : Bool) (h : Within p m r .head) (hb : m.buf[p]? = some b)
    (hmode : r.cs.mode = .key only) : Fed g p b m r [.markKey] := by
  obtain ⟨hkeys, hcount, hline⟩ := h.agrees
  have hc := h.toCommon.push hb
  have hp := (toNat_offset h.toCommon hb).1
  have hkeys0 : m.ctx.keys.toNat = 0 := by rw [hcount]; rfl
  have hm : m.runAll p g [.markKey] = .ok (m.setCtx
      { m.ctx with keyPos := Function.update m.ctx.keyPos m.ctx.keys.toNat (UInt64.ofNat p) }) :=
    if_pos (by rw [hkeys0]; decide)
  have hr : r.actAll b [.markKey] = .ok { r with text := [] } := if_pos (by rw [hkeys]; decide)
  have hlie : KeysLie p m r := by
    intro i k hk
    rw [hkeys] at hk
    cases hk
  refine fed_ok hm hr rfl ⟨⟨hc.cs, hc.stack, hc.command, hc.noreply, hc.calls, hc.le, hc.lt,
    hc.proper⟩, fun f _ => h.numbers f fun n => Mode.noConfusion, ?_⟩
  rw [show Reading.cs _ = r.cs from rfl, hmode]
  refine ⟨hlie.markKey hb (by rw [hkeys0, hkeys]; rfl) rfl rfl rfl rfl, ?_, ?_, fun _ => hkeys, ?_,
    hline.push hb rfl rfl rfl⟩
  · show m.ctx.keys.toNat = r.keys.length
    rw [hkeys0, hkeys]
    rfl
  · show r.keys.length < maxMultiGet
    rw [hkeys]
    decide
  · show Since (m.buf.take (p + 1)) (Function.update m.ctx.keyPos m.ctx.keys.toNat (UInt64.ofNat p)
      m.ctx.keys.toNat).toNat [b]
    rw [Function.update_self, hp]
    exact since_mark hb

theorem fed_nextKey (n : ℕ) (h : Within p m r (.gap n)) (hb : m.buf[p]? = some b)
    (hmode : r.cs.mode = .key false) : Fed g p b m r [.incrKey, .markKey] := by
  have hkeyed : Keyed p m r n := h.agrees
  have hc := h.toCommon.push hb
  have hp := (toNat_offset h.toCommon hb).1
  have hcount : (m.ctx.keys + 1).toNat = r.keys.length := by
    have hle := hkeyed.length_le
    have := hkeyed.count
    unfold maxMultiGet at hle
    rw [UInt32.toNat_add]
    show (m.ctx.keys.toNat + 1) % 2 ^ 32 = _
    omega
  obtain ⟨m1, hm1⟩ : ∃ m1, m1 = m.setCtx { m.ctx with keys := m.ctx.keys + 1 } := ⟨_, rfl⟩
  have hincr : m.incrKey = .ok m1 := by
    have hle := hkeyed.length_le
    rw [hm1]
    refine if_neg ?_
    show ¬ (m.ctx.keys + 1).toNat > maxMultiGet
    omega
  have hrun : m.runAll p g [.incrKey, .markKey] = m1.markKey p := by
    show (m.incrKey.andThen fun m => m.run p g .markKey) = _
    rw [hincr]
    rfl
  by_cases hlt : r.keys.length < maxMultiGet
  · have hm : m1.markKey p = .ok (m1.setCtx
        { m1.ctx with keyPos := Function.update m.ctx.keyPos r.keys.length (UInt64.ofNat p) }) := by
      subst hm1
      unfold Parsing.markKey Parsing.setCtx
      simp only [hcount, if_pos hlt]
    have hr : r.actAll b [.incrKey, .markKey] = .ok { r with text := [] } := if_pos hlt
    subst hm1
    refine fed_ok (hrun.trans hm) hr rfl ⟨⟨hc.cs, hc.stack, hc.command, hc.noreply, hc.calls, hc.le,
      hc.lt, hc.proper⟩, fun f _ => h.numbers f fun n => Mode.noConfusion, ?_⟩
    rw [show Reading.cs _ = r.cs from rfl, hmode]
    refine ⟨?_, hcount, hlt, (fun h => nomatch h), ?_, hkeyed.line.push hb rfl rfl rfl⟩
    · have hlie : KeysLie p (m.setCtx { m.ctx with keys := m.ctx.keys + 1 }) r := hkeyed.keys
      refine hlie.markKey hb hcount rfl rfl ?_ rfl
      rw [show (m.setCtx { m.ctx with keys := m.ctx.keys + 1 }).ctx.keys.toNat = _ from hcount]
      rfl
    · show Since (m.buf.take (p + 1)) (Function.update m.ctx.keyPos r.keys.length (UInt64.ofNat p)
        (m.ctx.keys + 1).toNat).toNat [b]
      rw [hcount, Function.update_self, hp]
      exact since_mark hb
  · have hm : m1.markKey p = .overrun m1 := by
      subst hm1
      unfold Parsing.markKey Parsing.setCtx
      simp only [hcount, if_neg hlt]
    have hr : r.actAll b [.incrKey, .markKey] = .overrun r := if_neg hlt
    unfold Fed
    rw [hrun, hm, hr, hm1]
    exact h.calls

theorem fed_keyEnd {only : Bool} {n : ℕ} (hn : n ≤ 1) (hn0 : only = false → n = 0)
    (h : Within p m r (.key only)) (hb : m.buf[p]? = some b) (hmode : r.cs.mode = .gap n) :
    Fed g p b m r [.key] := by
  obtain ⟨hlie, hcount, hlt, honly, hsince, hline⟩ := h.agrees
  have hc := h.toCommon.push hb
  have hlen := hsince.length
  rw [length_take hb] at hlen
  have hmax := h.lt
  have hplt := lt_of_getElem? hb
  have hsub : sizeSub p (m.ctx.keyPos m.ctx.keys.toNat).toNat = r.text.length := by
    rw [sizeSub_eq (by omega) (by omega)]
    omega
  have hm : m.runAll p g [.key] = .ok (m.setCtx
      { m.ctx with
        keyLen := Function.update m.ctx.keyLen m.ctx.keys.toNat
          (UInt32.ofNat (sizeSub p (m.ctx.keyPos m.ctx.keys.toNat).toNat)) }) :=
    if_pos (by omega)
  refine fed_ok hm rfl rfl ⟨⟨hc.cs, hc.stack, hc.command, hc.noreply, hc.calls, hc.le, hc.lt,
    hc.proper⟩, fun f _ => h.numbers f fun n => Mode.noConfusion, ?_⟩
  rw [show Reading.cs _ = r.cs from rfl, hmode]
  refine ⟨?_, ?_, ?_, ?_, hline.push hb rfl rfl rfl⟩
  · intro i k hk
    have hk : (r.keys ++ [r.text])[i]? = some k := hk
    show Lies (m.buf.take (p + 1)) (m.ctx.keyPos i).toNat k ∧
      (Function.update m.ctx.keyLen m.ctx.keys.toNat _ i).toNat = _
    rw [take_succ hb, hsub, hcount]
    rcases Nat.lt_or_ge i r.keys.length with hi | hi
    · rw [List.getElem?_append_left hi] at hk
      obtain ⟨hlies, hl⟩ := hlie i k hk
      rw [Function.update_of_ne (by omega)]
      exact ⟨hlies.push b, hl⟩
    · obtain rfl : i = r.keys.length := by
        have := (List.getElem?_eq_some_iff.1 hk).1
        simp at this
        omega
      obtain rfl : r.text = k := by simpa using hk
      rw [Function.update_self, UInt32.toNat_ofNat', ← hcount]
      exact ⟨hsince.lies.push b, rfl⟩
  · show m.ctx.keys.toNat + 1 = (r.keys ++ [r.text]).length
    rw [hcount]
    simp
  · show (r.keys ++ [r.text]).length ≤ maxMultiGet
    simp
    omega
  · show (m.ctx.keyPos 0).toNat + ((r.keys ++ [r.text]).headD []).length + n ≤ p + 1
    rcases hkeys : r.keys with _ | ⟨k, ks⟩
    · rw [hkeys] at hcount
      rw [hcount] at hlen
      show (m.ctx.keyPos 0).toNat + r.text.length + n ≤ p + 1
      simp only [List.length_nil] at hlen
      omega
    · obtain ⟨hlies, -⟩ := hlie 0 k (by rw [hkeys]; rfl)
      have hle := hlies.le
      rw [length_take hb] at hle
      have hfalse : only = false := by
        by_contra ho
        rw [honly (by simpa using ho)] at hkeys
        cases hkeys
      rw [hn0 hfalse]
      show (m.ctx.keyPos 0).toNat + k.length + 0 ≤ p + 1
      omega

theorem fed_dataStart {n : ℕ} (hn : 7 ≤ n) (h : Within p m r (.gap n)) (hb : m.buf[p]? = some b)
    (hmode : r.cs.mode = .done) : Fed g p b m r [.dataStart] := by
  have hkeyed : Keyed p m r n := h.agrees
  have hc := h.toCommon.push hb
  have hp := (toNat_offset h.toCommon hb).2
  have hbytes : m.ctx.bytes = value (r.numbers .bytes) :=
    UInt64.toNat_inj.1 (h.numbers .bytes fun n => Mode.noConfusion)
  refine fed_ok rfl rfl rfl ⟨⟨rfl, congrArg₂ _ h.cs h.stack, hc.command, hc.noreply, hc.calls,
    hc.le, hc.lt, trivial⟩, fun f _ => h.numbers f fun n => Mode.noConfusion, ?_⟩
  have hroom := hkeyed.room
  refine ⟨⟨hkeyed.push hb ⟨rfl, rfl, rfl, rfl, rfl⟩ rfl rfl (Nat.zero_le _), ?_⟩, ?_, hbytes,
    r.cs, r.stack, rfl, hmode, h.proper⟩
  · show _ + _ + 8 ≤ (UInt64.ofNat (p + 1)).toNat
    rw [hp]
    show (m.ctx.keyPos 0).toNat + (r.keys.headD []).length + 8 ≤ p + 1
    omega
  · show Since (m.buf.take (p + 1)) (UInt64.ofNat (p + 1)).toNat []
    rw [hp]
    have hlen : (m.buf.take (p + 1)).length = p + 1 := by
      have := lt_of_getElem? hb
      rw [List.length_take]
      omega
    have := Since.nil (m.buf.take (p + 1))
    rwa [hlen] at this

theorem fed_data (h : Within p m r .data) (hb : m.buf[p]? = some b) (hcs : r.cs = .data) :
    Fed g p b m r [.data] := by
  obtain ⟨hstored, hsince, hleft, s, stack, hstack, hs, hproper⟩ := h.agrees
  have hc := h.toCommon.push hb
  have hlen := hsince.length
  rw [length_take hb] at hlen
  have hmax := h.lt
  have hplt := lt_of_getElem? hb
  have hsub : sizeSub (p + 1) m.ctx.dataPos.toNat = (r.data ++ [b]).length := by
    rw [sizeSub_eq (by omega) (by omega), List.length_append, List.length_singleton]
    omega
  have hpush : Since (m.buf.take (p + 1)) m.ctx.dataPos.toNat (r.data ++ [b]) := by
    rw [take_succ hb]
    exact hsince.push b
  by_cases hzero : r.left - 1 = 0
  · have hm : m.runAll p g [.data] = .ok (m.setCtx
        { m.ctx with
          dataCount := m.ctx.dataCount - 1
          dataLen := UInt32.ofNat (sizeSub (p + 1) m.ctx.dataPos.toNat)
          cs := m.ctx.stack.headD .error
          stack := m.ctx.stack.tail }) :=
      congrArg Outcome.ok (if_pos (by rw [hleft]; exact hzero))
    have hr : r.actAll b [.data] = .ok
        { r with
          data := r.data ++ [b]
          left := r.left - 1
          cs := r.stack.headD .error
          stack := r.stack.tail } := congrArg Outcome.ok (if_pos hzero)
    have hhead : r.stack.headD .error = s := by rw [hstack]; rfl
    refine fed_ok hm hr rfl ⟨⟨?_, ?_, hc.command, hc.noreply, hc.calls, hc.le, hc.lt, ?_⟩,
      fun f _ => h.numbers f fun n => Mode.noConfusion, ?_⟩
    · exact congrArg (List.headD · _) h.stack
    · exact congrArg List.tail h.stack
    · show (r.stack.headD .error).Proper
      rwa [hhead]
    · show (r.stack.headD .error).mode.Agrees _ _ _
      rw [hhead, hs]
      refine ⟨hstored.push hb ⟨rfl, rfl, rfl, rfl, rfl⟩ rfl rfl rfl, hpush.lies, ?_⟩
      exact congrArg UInt32.ofNat hsub
  · have hm : m.runAll p g [.data] =
        .ok (m.setCtx { m.ctx with dataCount := m.ctx.dataCount - 1 }) :=
      congrArg Outcome.ok (if_neg (by rw [hleft]; exact hzero))
    have hr : r.actAll b [.data] = .ok { r with data := r.data ++ [b], left := r.left - 1 } :=
      congrArg Outcome.ok (if_neg hzero)
    refine fed_ok hm hr rfl ⟨⟨hc.cs, hc.stack, hc.command, hc.noreply, hc.calls, hc.le, hc.lt,
      hc.proper⟩, fun f _ => h.numbers f fun n => Mode.noConfusion, ?_⟩
    rw [show Reading.cs _ = r.cs from rfl, hcs]
    refine ⟨hstored.push hb ⟨rfl, rfl, rfl, rfl, rfl⟩ rfl rfl rfl, hpush, ?_, s, stack, hstack, hs,
      hproper⟩
    exact congrArg (· - 1) hleft

/-! ## The calls -/

theorem KeysLie.keyBytes {i : ℕ} {k : Bytes} (h : KeysLie p m r) (hk : r.keys[i]? = some k) :
    m.keyBytes i = some (clip k) := by
  obtain ⟨hlies, hlen⟩ := h i k hk
  unfold Parsing.keyBytes
  rw [hlen]
  exact hlies.read (Nat.mod_le _ _)

theorem mapM_eq_some_map {α β : Type} {f : α → Option β} (g : α → β) : ∀ l : List α,
    (∀ x ∈ l, f x = some (g x)) → l.mapM f = some (l.map g)
  | [], _ => rfl
  | x :: l, h => by
    have ih := mapM_eq_some_map g l fun y hy => h y (List.mem_cons_of_mem _ hy)
    rw [List.mapM_cons, h x List.mem_cons_self, ih]
    rfl

theorem mapM_keyBytes (h : KeysLie p m r) :
    (List.range r.keys.length).mapM m.keyBytes = some (r.keys.map clip) := by
  rw [mapM_eq_some_map (fun i => clip (r.keys.getD i []))]
  · congr 1
    apply List.ext_getElem
    · simp
    · intro i h1 h2
      have hi : i < r.keys.length := by simpa using h2
      simp [hi]
  · intro i hi
    have hi := List.mem_range.1 hi
    refine h.keyBytes ?_
    rw [List.getD_eq_getElem?_getD, List.getElem?_eq_getElem hi]
    rfl

/-- A call is made, if the command has one, and then something is written before `p`. -/
theorem fed_call {k : Kind} {a : Action} {m0 : Parsing} (write : Parsing → Outcome Parsing)
    (hc : Common p m0 r) (hline : LineLies p m0 r) (hb : m0.buf[p]? = some b)
    (hmode : r.cs.mode = .idle) (hnum : ∀ f, m0.ctx.field f = f.cast (value (r.numbers f)))
    (hbuf : m0.buf = m.buf)
    (hrun : m.runAll p g [a] = (m0.call p (some (r.request k))).andThen write)
    (hact : r.actAll b [a] = r.call b k)
    (hwrite : ∀ calls, ∃ buf, write { m0 with calls := calls } =
      .ok { m0 with calls := calls, buf := buf } ∧ buf.length = m0.buf.length ∧
        buf.drop (p + 1) = m0.buf.drop (p + 1)) : Fed g p b m r [a] := by
  have hcommand : (m0.buf.take (p + 1)).drop m0.start = r.line ++ [b] := by
    have hpush : LineLies (p + 1) m0 (r.push b) := hline.push hb rfl rfl rfl
    exact hpush.drop
  unfold Fed
  rw [hrun, hact]
  unfold Parsing.call Reading.call
  rw [hc.command]
  by_cases hset : TextGate.isSet r.command = true
  · obtain ⟨buf, hok, hlen, hdrop⟩ := hwrite (m0.calls ++ [⟨r.line ++ [b], r.request k⟩])
    simp only [hset, Bool.not_true, Bool.false_eq_true, if_false, if_true, hcommand,
      Outcome.andThen, hok]
    refine ⟨⟨⟨hc.cs, hc.stack, hc.command, hc.noreply, ?_, ?_, ?_, hc.proper⟩, fun f _ => hnum f,
      ?_⟩, hlen.trans (by rw [hbuf]), hdrop.trans (by rw [hbuf])⟩
    · exact congrArg (· ++ [_]) hc.calls
    · show p + 1 ≤ buf.length
      rw [hlen]
      exact lt_of_getElem? hb
    · show buf.length < 2 ^ 63
      rw [hlen]
      exact hc.lt
    · show r.cs.mode.Agrees _ _ _
      rw [hmode]
      trivial
  · simp only [hset, Bool.not_false, if_true, Bool.false_eq_true, if_false, Outcome.andThen]
    exact hc.calls

theorem andThen_ok {α : Type} (x : Outcome α) : x.andThen .ok = x := by
  rcases x with _ | _ | _ | _ <;> rfl

/-- A call without more. -/
theorem fed_call_only {k : Kind} {a : Action} {m0 : Parsing} (hc : Common p m0 r)
    (hline : LineLies p m0 r) (hb : m0.buf[p]? = some b) (hmode : r.cs.mode = .idle)
    (hnum : ∀ f, m0.ctx.field f = f.cast (value (r.numbers f))) (hbuf : m0.buf = m.buf)
    (hrun : m.runAll p g [a] = m0.call p (some (r.request k)))
    (hact : r.actAll b [a] = r.call b k) : Fed g p b m r [a] := by
  refine fed_call .ok hc hline hb hmode hnum hbuf ?_ hact fun calls => ⟨m0.buf, rfl, rfl, rfl⟩
  rw [hrun, andThen_ok]

/-- The first key. -/
theorem Keyed.keyBytes {n : ℕ} (h : Keyed p m r n) : m.keyBytes 0 = some r.key := by
  have hcount := h.count
  obtain ⟨k, ks, hkeys⟩ : ∃ k ks, r.keys = k :: ks := by
    refine List.exists_cons_of_ne_nil fun hnil => ?_
    rw [hnil] at hcount
    simp at hcount
  have hkey : r.keys[0]? = some k := by rw [hkeys]; rfl
  unfold Reading.key
  rw [h.keys.keyBytes hkey, hkeys]
  rfl

theorem exptime_eq (h : m.ctx.field .exptime = Field.exptime.cast (value (r.numbers .exptime))) :
    m.ctx.exptime = r.exptime := UInt32.toNat_inj.1 h

theorem casUnique_eq
    (h : m.ctx.field .casUnique = Field.casUnique.cast (value (r.numbers .casUnique))) :
    m.ctx.casUnique = r.casUnique := UInt64.toNat_inj.1 h

theorem flags_eq (h : m.ctx.field .flags = Field.flags.cast (value (r.numbers .flags))) :
    m.ctx.flags.toUInt16 = r.flags := congrArg UInt64.toUInt16 (UInt64.toNat_inj.1 h)

theorem fed_doRetrieval {n : ℕ} (hc : Common p m r) (hkeyed : Keyed p m r n)
    (hb : m.buf[p]? = some b) (hmode : r.cs.mode = .idle)
    (hnum : ∀ f, m.ctx.field f = f.cast (value (r.numbers f))) :
    Fed g p b m r [.doRetrieval] := by
  have hle := hkeyed.length_le
  have hcount : (m.ctx.keys + 1).toNat = r.keys.length := by
    have := hkeyed.count
    unfold maxMultiGet at hle
    rw [UInt32.toNat_add]
    show (m.ctx.keys.toNat + 1) % 2 ^ 32 = _
    omega
  obtain ⟨m0, hm0⟩ : ∃ m0, m0 = m.setCtx { m.ctx with keys := m.ctx.keys + 1 } := ⟨_, rfl⟩
  have hcount0 : m0.ctx.keys.toNat = r.keys.length := by rw [hm0]; exact hcount
  have hkeys : KeysLie p m0 r := by rw [hm0]; exact hkeyed.keys
  have hc0 : Common p m0 r := by
    rw [hm0]
    exact ⟨hc.cs, hc.stack, hc.command, hc.noreply, hc.calls, hc.le, hc.lt, hc.proper⟩
  have hrun : m.runAll p g [.doRetrieval] = m0.call p (some (r.request .retrieval)) := by
    show m.doRetrieval p = _
    unfold Parsing.doRetrieval
    simp only [← hm0, hcount0, if_pos hle, mapM_keyBytes hkeys, hc0.command]
    rfl
  refine fed_call_only hc0 ?_ ?_ hmode ?_ ?_ hrun rfl
  · rw [hm0]
    exact hkeyed.line
  · rw [hm0]
    exact hb
  · rw [hm0]
    exact hnum
  · rw [hm0]
    rfl

theorem fed_doDelete {n : ℕ} (hc : Common p m r) (hkeyed : Keyed p m r n)
    (hb : m.buf[p]? = some b) (hmode : r.cs.mode = .idle)
    (hnum : ∀ f, m.ctx.field f = f.cast (value (r.numbers f))) : Fed g p b m r [.doDelete] := by
  refine fed_call_only (k := .delete) hc hkeyed.line hb hmode hnum rfl ?_ rfl
  show m.doDelete p = _
  unfold Parsing.doDelete
  rw [hkeyed.keyBytes, exptime_eq (hnum .exptime), hc.noreply]
  rfl

theorem fed_doNumeric {n : ℕ} (hc : Common p m r) (hkeyed : Keyed p m r n)
    (hb : m.buf[p]? = some b) (hmode : r.cs.mode = .idle)
    (hnum : ∀ f, m.ctx.field f = f.cast (value (r.numbers f))) : Fed g p b m r [.doNumeric] := by
  refine fed_call_only (k := .numeric) hc hkeyed.line hb hmode hnum rfl ?_ rfl
  show m.doNumeric p = _
  unfold Parsing.doNumeric
  rw [hkeyed.keyBytes, casUnique_eq (hnum .casUnique), hc.noreply, hc.command]
  rfl

theorem fed_doOther (hc : Common p m r) (hline : LineLies p m r) (hb : m.buf[p]? = some b)
    (hmode : r.cs.mode = .idle) (hnum : ∀ f, m.ctx.field f = f.cast (value (r.numbers f))) :
    Fed g p b m r [.doOther] := by
  refine fed_call_only (k := .other) hc hline hb hmode hnum rfl ?_ rfl
  show m.doOther p = _
  unfold Parsing.doOther
  rw [hc.command]
  rfl

theorem length_written_le (g : TextGate) (flags : UInt16) (exptime : UInt32) :
    (g.written flags exptime).length ≤ 6 := by
  unfold TextGate.written
  split_ifs with h
  · exact Nat.zero_le 6
  · unfold envelope toBe16 toBe32
    rcases g.options.saveFlag with _ | _ <;> rcases g.options.saveExptime with _ | _ <;> simp

/-- Where bytes are written before a place, all but the bytes right before it stay. -/
theorem writeBefore_some {mem mem' bytes : Bytes} {q : ℕ}
    (h : writeBefore mem q bytes = some mem') : (bytes.length ≤ q ∧ q ≤ mem.length) ∧
      mem'.length = mem.length ∧ (∀ j, j ≤ q - bytes.length → mem'.take j = mem.take j) ∧
        ∀ j, q ≤ j → mem'.drop j = mem.drop j := by
  unfold writeBefore at h
  split_ifs at h with hle
  obtain rfl := Option.some.inj h
  have htake : (mem.take (q - bytes.length)).length = q - bytes.length := by
    rw [List.length_take]
    omega
  refine ⟨hle, ?_, fun j hj => ?_, fun j hj => ?_⟩
  · simp only [List.length_append, htake, List.length_drop]
    omega
  · rw [List.take_append_of_le_length (by omega), List.take_take, min_eq_left hj]
  · have hlen : (mem.take (q - bytes.length) ++ bytes).length = q := by
      rw [List.length_append, htake]
      omega
    rw [← List.append_assoc, List.drop_append, hlen, List.drop_drop,
      List.drop_of_length_le (by omega), List.nil_append]
    congr 1
    omega

/-- Some bytes before a place are written over. -/
theorem writeBefore_spec {mem bytes : Bytes} {q : ℕ} (hlen : bytes.length ≤ q)
    (hq : q ≤ mem.length) : ∃ mem', writeBefore mem q bytes = some mem' ∧
      mem'.length = mem.length ∧ ∀ j, q ≤ j → mem'.drop j = mem.drop j := by
  have hw : writeBefore mem q bytes = some _ := if_pos ⟨hlen, hq⟩
  obtain ⟨-, hlen', -, hdrop⟩ := writeBefore_some hw
  exact ⟨_, hw, hlen', hdrop⟩

/-- The value is written in place, before what is left to read. -/
theorem writeValue_spec {calls : List Call} (hstored : Stored p m r)
    (hlies : Lies (m.buf.take p) m.ctx.dataPos.toNat r.data) (hc : Common p m r) :
    ∃ buf, Parsing.writeValue { m with calls := calls } g =
      .ok { m with calls := calls, buf := buf } ∧ buf.length = m.buf.length ∧
        buf.drop (p + 1) = m.buf.drop (p + 1) := by
  have hroom := hstored.room
  have hle := hlies.le
  have hp := hc.le
  rw [List.length_take] at hle
  have hwritten := length_written_le g m.ctx.flags.toUInt16 m.ctx.exptime
  obtain ⟨buf, hw, hlen, hdrop⟩ := @writeBefore_spec m.buf
    (g.written m.ctx.flags.toUInt16 m.ctx.exptime) m.ctx.dataPos.toNat (by omega) (by omega)
  refine ⟨buf, ?_, hlen, hdrop _ (by omega)⟩
  unfold Parsing.writeValue
  simp only [hw]

theorem dataBytes_eq (hlies : Lies (m.buf.take p) m.ctx.dataPos.toNat r.data)
    (hlen : m.ctx.dataLen = UInt32.ofNat r.data.length) : m.dataBytes = some (clip r.data) := by
  unfold Parsing.dataBytes
  rw [hlen, UInt32.toNat_ofNat']
  exact hlies.read (Nat.mod_le _ _)

theorem fed_doStorage (hc : Common p m r) (ha : Mode.done.Agrees p m r) (hb : m.buf[p]? = some b)
    (hmode : r.cs.mode = .idle) (hnum : ∀ f, m.ctx.field f = f.cast (value (r.numbers f))) :
    Fed g p b m r [.doStorage] := by
  obtain ⟨hstored, hlies, hlen⟩ := ha
  refine fed_call (k := .storage) (Parsing.writeValue · g) hc hstored.keyed.line hb hmode hnum rfl
    ?_ rfl fun calls => writeValue_spec hstored hlies hc
  show m.doStorage p g = _
  unfold Parsing.doStorage
  rw [hstored.keyed.keyBytes, dataBytes_eq hlies hlen, hlen, flags_eq (hnum .flags),
    exptime_eq (hnum .exptime), hc.noreply, hc.command]
  rfl

theorem fed_doCas (hc : Common p m r) (ha : Mode.done.Agrees p m r) (hb : m.buf[p]? = some b)
    (hmode : r.cs.mode = .idle) (hnum : ∀ f, m.ctx.field f = f.cast (value (r.numbers f))) :
    Fed g p b m r [.doCas] := by
  obtain ⟨hstored, hlies, hlen⟩ := ha
  refine fed_call (k := .cas) (Parsing.writeValue · g) hc hstored.keyed.line hb hmode hnum rfl
    ?_ rfl fun calls => writeValue_spec hstored hlies hc
  show m.doCas p g = _
  unfold Parsing.doCas
  rw [hstored.keyed.keyBytes, dataBytes_eq hlies hlen, hlen, flags_eq (hnum .flags),
    exptime_eq (hnum .exptime), casUnique_eq (hnum .casUnique), hc.noreply]
  rfl

/-- A step keeps the parser and the reading together, if it marks no `exptime` beyond 32 bits. -/
theorem Steps.fed {md' : Mode} {as : List Action} (h : Steps md as md') (hw : Within p m r md)
    (hb : m.buf[p]? = some b) (hmode : r.cs.mode = md') (hdata : md = .data → r.cs = .data)
    (hnear : .mark .exptime ∈ as → p < 2 ^ 32) : Fed g p b m r as := by
  cases h with
  | begin w => exact fed_begin w hw hb hmode
  | letter w => exact fed_letter w hw hb hmode
  | word => exact fed_word hw hb hmode
  | firstKey only => exact fed_firstKey only hw hb hmode
  | keyByte only => exact fed_keyByte hw hb hmode
  | keyEnd hn hn0 => exact fed_keyEnd hn hn0 hw hb hmode
  | nextKey n => exact fed_nextKey n hw hb hmode
  | between hn => exact fed_between hn hw hb hmode
  | mark hn => exact fed_mark hn hw hb hmode fun hf => hnear (by rw [hf]; exact List.mem_cons_self)
  | digit f n => exact fed_digit hw hb hmode
  | number hn => exact fed_number hn hw hb hmode
  | noreply hn => exact fed_noreply hn hw hb hmode
  | dataStart hn => exact fed_dataStart hn hw hb hmode
  | data => exact fed_data hw hb (hdata rfl)
  | behind => exact fed_behind hw hb hmode
  | other =>
    obtain ⟨-, -, hline⟩ := hw.agrees
    exact fed_doOther hw.toCommon hline hb hmode fun f => hw.numbers f fun n => Mode.noConfusion
  | @line k n hk =>
    have hkeyed : Keyed p m r n := hw.agrees
    have hnum := fun f => hw.numbers f fun n => Mode.noConfusion
    cases k with
    | retrieval => exact fed_doRetrieval hw.toCommon hkeyed hb hmode hnum
    | delete => exact fed_doDelete hw.toCommon hkeyed hb hmode hnum
    | numeric => exact fed_doNumeric hw.toCommon hkeyed hb hmode hnum
    | other => exact fed_doOther hw.toCommon hkeyed.line hb hmode hnum
    | storage => cases hk
    | cas => cases hk
  | dataLine k =>
    have hkeyed := hw.agrees.1.keyed
    have hnum := fun f => hw.numbers f fun n => Mode.noConfusion
    cases k with
    | retrieval => exact fed_doRetrieval hw.toCommon hkeyed hb hmode hnum
    | delete => exact fed_doDelete hw.toCommon hkeyed hb hmode hnum
    | numeric => exact fed_doNumeric hw.toCommon hkeyed hb hmode hnum
    | other => exact fed_doOther hw.toCommon hkeyed.line hb hmode hnum
    | storage => exact fed_doStorage hw.toCommon hw.agrees hb hmode hnum
    | cas => exact fed_doCas hw.toCommon hw.agrees hb hmode hnum

/-- The state of the machine itself is not among what is agreed on. -/
theorem Mode.Agrees.setCs (s : State) (h : md.Agrees p m r) :
    md.Agrees p (m.setCtx { m.ctx with cs := s }) { r with cs := s } := by
  have hkeyed : ∀ {n : ℕ}, Keyed p m r n →
      Keyed p (m.setCtx { m.ctx with cs := s }) { r with cs := s } n :=
    fun h => ⟨h.keys, h.count, h.length_le, h.room, h.line⟩
  cases md with
  | idle => trivial
  | head => exact h
  | key only => exact h
  | gap n => exact hkeyed h
  | number f n =>
    refine ⟨hkeyed h.1, ?_, h.2.2⟩
    cases f <;> exact h.2.1
  | data => exact ⟨⟨hkeyed h.1.keyed, h.1.room⟩, h.2⟩
  | done => exact ⟨⟨hkeyed h.1.keyed, h.1.room⟩, h.2⟩

theorem eq_data_of_mode {s : State} (h : s.mode = .data) : s = .data := by
  cases s with
  | data => rfl
  | cr k => cases k <;> cases h
  | _ => cases h

/-- A byte keeps them together. -/
theorem Sim.feed (h : Sim p m r) (hb : m.buf[p]? = some b)
    (hnear : .mark .exptime ∈ (next r.cs b).1 → p < 2 ^ 32) :
    Matches (p + 1) m (m.feed p g) (r.feed b) := by
  have hcs := h.cs
  unfold Parsing.feed Reading.feed
  simp only [hb, hcs]
  by_cases herr : (next r.cs b).2 = .error
  · rw [if_pos herr, if_pos herr]
    exact h.calls
  · rw [if_neg herr, if_neg herr]
    obtain ⟨hproper, hsteps⟩ := (moves_next herr).steps h.proper
    have hnum : ∀ f, (∀ n, r.cs.mode ≠ .number f n) →
        (m.setCtx { m.ctx with cs := (next r.cs b).2 }).ctx.field f =
          f.cast (value (r.numbers f)) := fun f hf => by
      have := h.numbers f hf
      cases f <;> exact this
    have hw : Within p (m.setCtx { m.ctx with cs := (next r.cs b).2 })
        { r with cs := (next r.cs b).2 } r.cs.mode :=
      ⟨⟨rfl, h.stack, h.command, h.noreply, h.calls, h.le, h.lt, hproper⟩, hnum, h.agrees.setCs _⟩
    refine hsteps.fed hw hb rfl (fun hmode => ?_) hnear
    rw [eq_data_of_mode hmode]
    rfl

/-- No `exptime` begins beyond 32 bits, where the bytes are read from the offset `p` on. -/
def Near : ℕ → Bytes → Reading → Prop
  | _, [], _ => True
  | p, b :: bs, r => (.mark .exptime ∈ (next r.cs b).1 → p < 2 ^ 32) ∧
      ∀ r', r.feed b = .ok r' → Near (p + 1) bs r'

theorem Matches.andThen {q : ℕ} {x : Outcome Parsing} {y : Outcome Reading}
    {f : Parsing → Outcome Parsing} {f' : Reading → Outcome Reading} (h : Matches p m x y)
    (hf : ∀ m' r', y = .ok r' → Sim p m' r' → m'.buf.length = m.buf.length →
      m'.buf.drop p = m.buf.drop p → Matches q m (f m') (f' r')) :
    Matches q m (x.andThen f) (y.andThen f') := by
  rcases x with m' | m' | m' | m' <;> rcases y with r' | r' | r' | r'
  · exact hf m' r' rfl h.1 h.2.1 h.2.2
  all_goals first | exact h | exact h.elim

/-- `Q` holds of the parser before each of the next `n` bytes. -/
def Parsing.Heeds (Q : ℕ → Parsing → Prop) (g : TextGate) : ℕ → ℕ → Parsing → Prop
  | 0, _, _ => True
  | n + 1, p, m => Q p m ∧ ∀ m', m.feed p g = .ok m' → Heeds Q g n (p + 1) m'

/-- An `exptime` that begins at `p` is marked within 32 bits. -/
def Parsing.Close (p : ℕ) (m : Parsing) : Prop :=
  ∀ b, m.buf[p]? = some b → .mark .exptime ∈ (next m.ctx.cs b).1 → p < 2 ^ 32

theorem take_drop_cons {buf bs : Bytes} (h : (buf.drop p).take (b :: bs).length = b :: bs) :
    buf[p]? = some b ∧ (buf.drop (p + 1)).take bs.length = bs := by
  rcases hd : buf.drop p with _ | ⟨c, l⟩
  · simp [hd] at h
  · rw [hd, List.length_cons, List.take_succ_cons, List.cons.injEq] at h
    obtain ⟨rfl, h⟩ := h
    rw [← List.head?_drop, ← List.tail_drop, hd]
    exact ⟨rfl, h⟩

/-- Some bytes keep them together. -/
theorem Sim.exec : ∀ (bs : Bytes) {p : ℕ} {m : Parsing} {r : Reading}, Sim p m r →
    (m.buf.drop p).take bs.length = bs → Near p bs r →
    Matches (p + bs.length) m (m.exec g bs.length p) (r.feedAll bs)
  | [], p, m, r, h, _, _ => ⟨h, rfl, rfl⟩
  | b :: bs, p, m, r, h, hbs, hnear => by
    obtain ⟨hb, hbs⟩ := take_drop_cons hbs
    rw [show p + (b :: bs).length = p + 1 + bs.length by rw [List.length_cons]; omega]
    refine (h.feed (g := g) hb hnear.1).andThen fun m' r' hr' hsim hlen hbuf => ?_
    have hrest : (m'.buf.drop (p + 1)).take bs.length = bs := by
      rw [hbuf]
      exact hbs
    have hmatch := Sim.exec bs hsim hrest (hnear.2 r' hr')
    rcases hx : m'.exec g bs.length (p + 1) with m'' | m'' | m'' | m'' <;>
      rcases hy : r'.feedAll bs with r'' | r'' | r'' | r'' <;> rw [hx, hy] at hmatch
    · refine ⟨hmatch.1, hmatch.2.1.trans hlen, hmatch.2.2.trans ?_⟩
      rw [← List.drop_drop, hbuf, List.drop_drop]
    all_goals exact hmatch

/-- The parser marks each `exptime` as the reading needs it. -/
theorem Sim.near : ∀ (bs : Bytes) {p : ℕ} {m : Parsing} {r : Reading}, Sim p m r →
    (m.buf.drop p).take bs.length = bs →
    m.Heeds (fun p m => m.Close p) g bs.length p → Near p bs r
  | [], _, _, _, _, _, _ => trivial
  | b :: bs, p, m, r, h, hbs, hheeds => by
    obtain ⟨hb, hbs⟩ := take_drop_cons hbs
    obtain ⟨hclose, hrest⟩ := hheeds
    have hmark : .mark .exptime ∈ (next r.cs b).1 → p < 2 ^ 32 := by
      rw [← h.cs]
      exact hclose b hb
    refine ⟨hmark, fun r' hr' => ?_⟩
    have hmatch := h.feed (g := g) hb hmark
    rw [hr'] at hmatch
    rcases hx : m.feed p g with m' | m' | m' | m' <;> rw [hx] at hmatch
    · refine Sim.near bs hmatch.1 ?_ (hrest m' hx)
      rw [hmatch.2.2]
      exact hbs
    all_goals exact hmatch.elim

theorem heeds_of_le : ∀ {n p : ℕ} {m : Parsing}, p + n ≤ 2 ^ 32 →
    m.Heeds (fun p m => m.Close p) g n p
  | 0, _, _, _ => trivial
  | n + 1, p, m, h => ⟨fun _ _ _ => by omega, fun _ _ => heeds_of_le (by omega)⟩

end

/-! ## A stream in parts -/

section

variable {r r' : Reading} {xs ys : Bytes} {p q : ℕ}

theorem feedAll_append : ∀ (xs ys : Bytes) (r : Reading),
    r.feedAll (xs ++ ys) = (r.feedAll xs).andThen fun r => r.feedAll ys
  | [], ys, r => rfl
  | b :: xs, ys, r => by
    show (r.feed b).andThen (fun r => r.feedAll (xs ++ ys)) =
      ((r.feed b).andThen fun r => r.feedAll xs).andThen fun r => r.feedAll ys
    rcases r.feed b with r' | r' | r' | r'
    · exact feedAll_append xs ys r'
    · rfl
    · rfl
    · rfl

theorem feedAll_append_of_ok (h : r.feedAll xs = .ok r') :
    r.feedAll (xs ++ ys) = r'.feedAll ys := by
  rw [feedAll_append, h]
  rfl

/-! ### The keys of a retrieval -/

/-- No key begins behind 256 others of its command. -/
def FewKeys : Bytes → Reading → Prop
  | [], _ => True
  | b :: bs, r => (.markKey ∈ (next r.cs b).1 → r.keys.length < maxMultiGet) ∧
      ∀ r', r.feed b = .ok r' → FewKeys bs r'

instance decidableFewKeys : ∀ (bs : Bytes) (r : Reading), Decidable (FewKeys bs r)
  | [], _ => isTrue trivial
  | b :: bs, r =>
    have : Decidable (∀ r', r.feed b = .ok r' → FewKeys bs r') :=
      match r.feed b with
      | .ok r' =>
        have := decidableFewKeys bs r'
        decidable_of_iff (FewKeys bs r') ⟨fun h _ he => Outcome.ok.inj he ▸ h, fun h => h r' rfl⟩
      | .convertError _ => isTrue (by simp)
      | .overrun _ => isTrue (by simp)
      | .fault _ => isTrue (by simp)
    inferInstanceAs (Decidable (_ ∧ _))

theorem act_ne_overrun {a : Action} {b : UInt8} (ha : a ≠ .markKey) :
    r.act b a ≠ .overrun r' := by
  have hcall : ∀ k, r.call b k ≠ .overrun r' := fun k h => by
    unfold Reading.call at h
    split_ifs at h
  cases a with
  | markKey => exact absurd rfl ha
  | number f =>
    simp only [Reading.act]
    split_ifs <;> simp
  | doRetrieval => exact hcall _
  | doStorage => exact hcall _
  | doCas => exact hcall _
  | doDelete => exact hcall _
  | doNumeric => exact hcall _
  | doOther => exact hcall _
  | _ => simp [Reading.act]

/-- Without `mark_key` the table is not left. -/
theorem foldl_act_ne_overrun {b : UInt8} : ∀ (as : List Action) (x : Outcome Reading),
    .markKey ∉ as → (∀ r', x ≠ .overrun r') →
    ∀ r', as.foldl (fun x a => x.andThen fun r => r.act b a) x ≠ .overrun r'
  | [], _, _, hx => hx
  | a :: as, x, has, hx => by
    obtain ⟨ha, has⟩ : Action.markKey ≠ a ∧ Action.markKey ∉ as := by simpa using has
    refine foldl_act_ne_overrun as _ has fun r' => ?_
    rcases x with r | r | r | r
    · exact act_ne_overrun (Ne.symm ha)
    · simp [Outcome.andThen]
    · exact absurd rfl (hx r)
    · simp [Outcome.andThen]

/-- A key is marked alone, or behind the last one of a retrieval. -/
theorem markKey_mem {c c' : State} {b : UInt8} {as : List Action} (h : Moves c b as c')
    (hmem : .markKey ∈ as) : as = [.markKey] ∨ as = [.incrKey, .markKey] := by
  cases h with
  | key hb => exact .inl rfl
  | nextKey hb => exact .inr rfl
  | begin hs hg => simp [cmds] at hmem
  | letter hg => simp [cmds] at hmem
  | @line k hk => cases k <;> simp [Kind.finish] at hmem
  | @dataLine k => cases k <;> simp [Kind.finish] at hmem
  | _ => simp at hmem

theorem feed_ne_overrun {b : UInt8}
    (h : .markKey ∈ (next r.cs b).1 → r.keys.length < maxMultiGet) : r.feed b ≠ .overrun r' := by
  unfold Reading.feed
  simp only []
  split_ifs with herr
  · simp
  suffices hall : ∀ r', Reading.actAll { r with cs := (next r.cs b).2 } b (next r.cs b).1 ≠
      .overrun r' by
    rcases hx : Reading.actAll { r with cs := (next r.cs b).2 } b (next r.cs b).1 with q | q | q | q
    · simp [Outcome.andThen]
    · simp [Outcome.andThen]
    · exact absurd hx (hall q)
    · simp [Outcome.andThen]
  by_cases hmem : .markKey ∈ (next r.cs b).1
  · have hlt := h hmem
    have hmark : Reading.act { r with cs := (next r.cs b).2 } b .markKey =
        .ok { r with cs := (next r.cs b).2, text := [] } := if_pos hlt
    rcases markKey_mem (moves_next herr) hmem with has | has
    · rw [has]
      show ∀ r', Reading.act _ b .markKey ≠ .overrun r'
      rw [hmark]
      simp
    · rw [has]
      show ∀ r', Reading.act _ b .markKey ≠ .overrun r'
      rw [hmark]
      simp
  · exact foldl_act_ne_overrun _ _ hmem (by simp)

/-- No place outside of the table is marked. -/
theorem FewKeys.ne_overrun : ∀ {bs : Bytes} {r : Reading}, FewKeys bs r →
    ∀ r', r.feedAll bs ≠ .overrun r'
  | [], _, _, _ => by simp [Reading.feedAll]
  | b :: bs, r, h, r' => by
    show (r.feed b).andThen (Reading.feedAll bs) ≠ .overrun r'
    rcases hx : r.feed b with q | q | q | q
    · exact (h.2 q hx).ne_overrun r'
    · simp [Outcome.andThen]
    · exact absurd hx (feed_ne_overrun h.1)
    · simp [Outcome.andThen]

theorem Near.mono : ∀ {xs : Bytes} {p q : ℕ} {r : Reading}, Near p xs r → q ≤ p → Near q xs r
  | [], _, _, _, _, _ => trivial
  | _ :: _, _, _, _, h, hle =>
    ⟨fun hmark => lt_of_le_of_lt hle (h.1 hmark),
      fun r' hr' => (h.2 r' hr').mono (Nat.succ_le_succ hle)⟩

theorem Near.left : ∀ {xs : Bytes} {p : ℕ} {r : Reading}, Near p (xs ++ ys) r → Near p xs r
  | [], _, _, _ => trivial
  | _ :: _, _, _, h => ⟨h.1, fun r' hr' => (h.2 r' hr').left⟩

theorem Near.right : ∀ {xs : Bytes} {p : ℕ} {r : Reading}, Near p (xs ++ ys) r →
    r.feedAll xs = .ok r' → Near (p + xs.length) ys r'
  | [], p, r, h, hr' => by
    cases hr'
    exact h
  | b :: xs, p, r, h, hr' => by
    change (r.feed b).andThen (fun r => r.feedAll xs) = .ok r' at hr'
    rcases hf : r.feed b with r1 | r1 | r1 | r1 <;> rw [hf] at hr'
    · have := (h.2 r1 hf).right hr'
      rwa [Nat.add_right_comm, Nat.add_assoc] at this
    all_goals cases hr'

end

/-! ## On another buffer -/

section

variable {p : ℕ} {m m' : Parsing} {r : Reading} {g : TextGate}

theorem sim_init {buf : Bytes} (h : buf.length < 2 ^ 63) :
    Sim 0 ⟨.init, buf, 0, []⟩ .init := by
  refine ⟨⟨rfl, rfl, rfl, rfl, rfl, Nat.zero_le _, h, trivial⟩, fun f _ => ?_, trivial⟩
  cases f <;> rfl

/-- What is agreed on does not depend on what is behind, nor on where the buffer is. -/
theorem Mode.Agrees.move {md : Mode} (h : md.Agrees p m r) (hctx : m'.ctx = m.ctx)
    (hstart : m'.start = m.start) (hbuf : m'.buf.take p = m.buf.take p) : md.Agrees p m' r := by
  have hkeys : KeysLie p m r → KeysLie p m' r := fun h i k hi => by
    rw [hbuf, hctx]
    exact h i k hi
  have hline : LineLies p m r → LineLies p m' r := fun h => by
    unfold LineLies
    rw [hbuf, hstart]
    exact h
  have hkeyed : ∀ {n}, Keyed p m r n → Keyed p m' r n := fun h => by
    refine ⟨hkeys h.keys, ?_, h.length_le, ?_, hline h.line⟩
    · rw [hctx]
      exact h.count
    · rw [hctx]
      exact h.room
  have hstored : Stored p m r → Stored p m' r := fun h => by
    refine ⟨hkeyed h.keyed, ?_⟩
    rw [hctx]
    exact h.room
  cases md with
  | idle => trivial
  | head => exact ⟨h.1, by rw [hctx]; exact h.2.1, hline h.2.2⟩
  | key only =>
    obtain ⟨h1, h2, h3, h4, h5, h6⟩ := h
    exact ⟨hkeys h1, by rw [hctx]; exact h2, h3, h4, by rw [hbuf, hctx]; exact h5, hline h6⟩
  | gap n => exact hkeyed h
  | number f n => exact ⟨hkeyed h.1, by rw [hbuf, hctx]; exact h.2.1, h.2.2⟩
  | data =>
    obtain ⟨h1, h2, h3, h4⟩ := h
    exact ⟨hstored h1, by rw [hbuf, hctx]; exact h2, by rw [hctx]; exact h3, h4⟩
  | done =>
    obtain ⟨h1, h2, h3⟩ := h
    exact ⟨hstored h1, by rw [hbuf, hctx]; exact h2, by rw [hctx]; exact h3⟩

theorem Sim.move (h : Sim p m r) (hctx : m'.ctx = m.ctx) (hstart : m'.start = m.start)
    (hcalls : m'.calls = m.calls) (hbuf : m'.buf.take p = m.buf.take p) (hle : p ≤ m'.buf.length)
    (hlt : m'.buf.length < 2 ^ 63) : Sim p m' r := by
  refine ⟨⟨?_, ?_, ?_, ?_, hcalls.trans h.calls, hle, hlt, h.proper⟩, fun f hf => ?_,
    h.agrees.move hctx hstart hbuf⟩
  · rw [hctx, h.cs]
  · rw [hctx, h.stack]
  · rw [hctx, h.command]
  · rw [hctx, h.noreply]
  · rw [hctx]
    exact h.numbers f hf

/-- Between commands nothing of the buffer is needed. -/
theorem Sim.idle (h : Sim p m r) (hcs : r.cs.mode = .idle) {buf : Bytes}
    (hlt : buf.length < 2 ^ 63) : Sim 0 { m with buf := buf } r := by
  refine ⟨⟨h.cs, h.stack, h.command, h.noreply, h.calls, Nat.zero_le _, hlt, h.proper⟩, h.numbers,
    ?_⟩
  rw [hcs]
  trivial

end

end Kumofs.Gate.Memtext
