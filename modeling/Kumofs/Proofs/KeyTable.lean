import Kumofs.Proofs.TextConn

/-!
# The keys of a retrieval

`key_pos` and `key_len` have room for 256 keys. The parser looks at their number when a key begins,
before it stores the place of it; it lets one too many pass.
-/

namespace Kumofs.Gate

namespace Memtext

variable {m : Parsing} {p : ℕ} {b : UInt8} {g : TextGate}

/-- The byte at `p` begins no key of a retrieval that has 256 keys. -/
def Parsing.Spare (p : ℕ) (m : Parsing) : Prop :=
  ∀ b, m.buf[p]? = some b → isKeyByte b → m.ctx.cs = .afterKey .retrieval →
    m.ctx.keys.toNat + 1 ≠ maxMultiGet

/-- The number of keys, by where the parser is. -/
def Mode.Counts (c : Parser) : Mode → Prop
  | .idle => True
  | .head => c.keys = 0
  | .key _ | .gap _ | .number _ _ | .done => c.keys.toNat < maxMultiGet
  | .data => c.keys.toNat < maxMultiGet ∧
      ∃ s stack, c.stack = s :: stack ∧ s.mode = .done ∧ s.Proper

structure Parser.Counted (c : Parser) : Prop where
  proper : c.cs.Proper
  counts : c.cs.mode.Counts c

/-- What a step of the parser does to the number of keys; `full` tells that there are 256. -/
def Keeps (full : Prop) : Outcome Parsing → Prop
  | .ok m => m.ctx.Counted ∧ ¬ full
  | .overrun _ => full
  | .convertError _ | .fault _ => ¬ full

section

variable {md md' : Mode} {full : Prop} {q : Option Request} {as : List Action}

theorem Mode.Counts.congr {c c' : Parser} (h : md.Counts c) (hkeys : c'.keys = c.keys)
    (hstack : c'.stack = c.stack) : md.Counts c' := by
  cases md with
  | idle => trivial
  | head => exact hkeys.trans h
  | data =>
    refine ⟨?_, ?_⟩
    · rw [hkeys]
      exact h.1
    · rw [hstack]
      exact h.2
  | _ =>
    show c'.keys.toNat < maxMultiGet
    rw [hkeys]
    exact h

/-- An action that leaves the number of keys. -/
theorem keeps_same {m' : Parsing} (hc : m.ctx.Counted) (hn : ¬ full) (hcs : m'.ctx.cs = m.ctx.cs)
    (hkeys : m'.ctx.keys = m.ctx.keys) (hstack : m'.ctx.stack = m.ctx.stack) :
    Keeps full (.ok m') := by
  refine ⟨⟨?_, ?_⟩, hn⟩
  · rw [hcs]
    exact hc.proper
  · rw [hcs]
    exact hc.counts.congr hkeys hstack

/-- A callback is called when the keys are done with. -/
theorem keeps_call (hc : m.ctx.Counted) (hn : ¬ full) : Keeps full (m.call p q) := by
  unfold Parsing.call
  split_ifs
  · exact hn
  · rcases q with _ | q
    · exact hn
    · exact keeps_same hc hn rfl rfl rfl

theorem keeps_write (hc : m.ctx.Counted) (hn : ¬ full) :
    Keeps full ((m.call p q).andThen (Parsing.writeValue · g)) := by
  have hcall := keeps_call (p := p) (q := q) hc hn
  rcases hx : m.call p q with m1 | m1 | m1 | m1 <;> rw [hx] at hcall
  · show Keeps full (m1.writeValue g)
    unfold Parsing.writeValue
    split
    · exact hn
    · exact keeps_same hcall.1 hn rfl rfl rfl
  all_goals exact hcall

theorem setField_counts (c : Parser) (v : UInt64) (f : Field) :
    (c.setField v f).cs = c.cs ∧ (c.setField v f).keys = c.keys ∧
      (c.setField v f).stack = c.stack := by
  cases f <;> exact ⟨rfl, rfl, rfl⟩

theorem keeps_setField (hc : m.ctx.Counted) (hn : ¬ full) (v : UInt64) (f : Field) :
    Keeps full (.ok (m.setCtx (m.ctx.setField v f))) := by
  obtain ⟨hcs, hkeys, hstack⟩ := setField_counts m.ctx v f
  exact keeps_same hc hn hcs hkeys hstack

theorem keeps_setInteger (hc : m.ctx.Counted) (hn : ¬ full) (f : Field) :
    Keeps full (m.setInteger p f) := by
  unfold Parsing.setInteger
  simp only []
  split
  · exact hn
  · split_ifs
    · exact keeps_setField hc hn 0 f
    · exact hn
    · split
      · exact hn
      · split_ifs
        · exact hn
        · exact keeps_setField hc hn _ f

/-- The callbacks at the end of a command. -/
theorem keeps_finish (hc : m.ctx.Counted) (hlt : m.ctx.keys.toNat < maxMultiGet)
    (hidle : m.ctx.cs.mode = .idle) (hn : ¬ full) (k : Kind) :
    Keeps full (m.runAll p g k.finish) := by
  cases k with
  | retrieval =>
    have hcount : (m.ctx.keys + 1).toNat ≤ maxMultiGet := by
      unfold maxMultiGet at hlt ⊢
      rw [UInt32.toNat_add]
      show (m.ctx.keys.toNat + 1) % 2 ^ 32 ≤ 256
      omega
    show Keeps full (m.doRetrieval p)
    unfold Parsing.doRetrieval
    simp only []
    split_ifs with hle
    · refine keeps_call ⟨hc.proper, ?_⟩ hn
      show m.ctx.cs.mode.Counts _
      rw [hidle]
      trivial
    · exact absurd hcount hle
  | storage => exact keeps_write hc hn
  | cas => exact keeps_write hc hn
  | delete => exact keeps_call hc hn
  | numeric => exact keeps_call hc hn
  | other => exact keeps_call (q := some (.other m.ctx.command)) hc hn

theorem incrKey_not_mem_cmds (w : Bytes) : .incrKey ∉ cmds w := by
  rcases cmds_cases w with hw | ⟨c, hw⟩ <;> simp [hw]

theorem incrKey_not_mem_finish (k : Kind) : .incrKey ∉ k.finish := by
  cases k <;> decide

theorem keeps_cmds (hc : m.ctx.Counted) (hn : ¬ full) (w : Bytes) :
    Keeps full (m.runAll p g (cmds w)) := by
  rcases cmds_cases w with hw | ⟨c, hw⟩ <;> rw [hw]
  · exact keeps_same hc hn rfl rfl rfl
  · exact keeps_same hc hn rfl rfl rfl

theorem keeps_markKey (hc : m.ctx.Counted) (hlt : m.ctx.keys.toNat < maxMultiGet) (hn : ¬ full) :
    Keeps full (m.markKey p) := by
  unfold Parsing.markKey
  simp only []
  rw [if_pos hlt]
  exact keeps_same hc hn rfl rfl rfl

theorem keeps_key (hc : m.ctx.Counted) (hlt : m.ctx.keys.toNat < maxMultiGet) (hn : ¬ full) :
    Keeps full (m.key p) := by
  unfold Parsing.key
  simp only []
  rw [if_pos hlt]
  exact keeps_same hc hn rfl rfl rfl

/-- Behind 256 keys the next one is marked where there is no room. -/
theorem keeps_nextKey (hlt : m.ctx.keys.toNat < maxMultiGet)
    (hcs : m.ctx.cs.mode = .key false) (hp : m.ctx.cs.Proper) :
    Keeps (m.ctx.keys.toNat + 1 = maxMultiGet) (m.runAll p g [.incrKey, .markKey]) := by
  obtain ⟨m1, hm1⟩ : ∃ m1, m1 = m.setCtx { m.ctx with keys := m.ctx.keys + 1 } := ⟨_, rfl⟩
  have hcount : m1.ctx.keys.toNat = m.ctx.keys.toNat + 1 := by
    unfold maxMultiGet at hlt
    rw [hm1]
    show (m.ctx.keys + 1).toNat = _
    rw [UInt32.toNat_add]
    show (m.ctx.keys.toNat + 1) % 2 ^ 32 = _
    omega
  have hincr : m.incrKey = .ok m1 := by
    rw [hm1]
    refine if_neg ?_
    rw [← hm1, hcount]
    omega
  have hrun : m.runAll p g [.incrKey, .markKey] = m1.markKey p := by
    show (m.incrKey.andThen fun m => m.run p g .markKey) = _
    rw [hincr]
    rfl
  rw [hrun]
  by_cases hfull : m.ctx.keys.toNat + 1 = maxMultiGet
  · unfold Parsing.markKey
    simp only []
    rw [if_neg (by omega)]
    exact hfull
  · have hlt1 : m1.ctx.keys.toNat < maxMultiGet := by omega
    refine keeps_markKey ⟨?_, ?_⟩ hlt1 hfull
    · rw [hm1]
      exact hp
    · rw [show m1.ctx.cs = m.ctx.cs by rw [hm1]; rfl, hcs]
      exact hlt1

/-- A byte of data, or the last one. -/
theorem keeps_data (hc : Mode.data.Counts m.ctx) (hcs : m.ctx.cs = .data) (hn : ¬ full) :
    Keeps full (.ok (m.data p)) := by
  obtain ⟨hlt, s, stack, hstack, hs, hp⟩ := hc
  refine ⟨?_, hn⟩
  unfold Parsing.data
  simp only []
  split_ifs
  · refine ⟨?_, ?_⟩
    · show (m.ctx.stack.headD .error).Proper
      rw [hstack]
      exact hp
    · show (m.ctx.stack.headD .error).mode.Counts _
      rw [hstack]
      show s.mode.Counts _
      rw [hs]
      exact hlt
  · refine ⟨?_, ?_⟩
    · show m.ctx.cs.Proper
      rw [hcs]
      trivial
    · show m.ctx.cs.mode.Counts _
      rw [hcs]
      exact ⟨hlt, s, stack, hstack, hs, hp⟩

/-- A transition of the grammar keeps the number of keys in the table, but for one that begins a key
behind 256 others. -/
theorem Steps.keeps (h : Steps md as md') (hc : md.Counts m.ctx) (hcs : m.ctx.cs.mode = md')
    (hp : m.ctx.cs.Proper) (hdata : md = .data → m.ctx.cs = .data) :
    Keeps (.incrKey ∈ as ∧ m.ctx.keys.toNat + 1 = maxMultiGet) (m.runAll p g as) := by
  have hcounted : md'.Counts m.ctx → m.ctx.Counted := fun hc' => ⟨hp, by rw [hcs]; exact hc'⟩
  have hzero : m.ctx.keys = 0 → m.ctx.keys.toNat < maxMultiGet := fun h => by rw [h]; decide
  cases h with
  | begin w =>
    show Keeps _ ((m.reset p).runAll p g (cmds w))
    refine keeps_cmds (m := m.reset p) ⟨hp, ?_⟩ ?_ w
    · show m.ctx.cs.mode.Counts _
      rw [hcs]
      rfl
    · simp [incrKey_not_mem_cmds]
  | letter w =>
    exact keeps_cmds (hcounted hc) (fun h => incrKey_not_mem_cmds w h.1) w
  | word => exact keeps_same (hcounted hc) (by simp) rfl rfl rfl
  | firstKey only => exact keeps_markKey (hcounted (hzero hc)) (hzero hc) (by simp)
  | keyByte only => exact keeps_same (hcounted hc) (by simp) rfl rfl rfl
  | keyEnd hn hn0 => exact keeps_key (hcounted hc) hc (by simp)
  | nextKey n =>
    rw [show (Action.incrKey ∈ [.incrKey, .markKey] ∧ m.ctx.keys.toNat + 1 = maxMultiGet) =
      (m.ctx.keys.toNat + 1 = maxMultiGet) by simp]
    exact keeps_nextKey hc hcs hp
  | between hn => exact keeps_same (hcounted hc) (by simp) rfl rfl rfl
  | mark hn => exact keeps_setField (hcounted hc) (by simp) _ _
  | digit f n => exact keeps_same (hcounted hc) (by simp) rfl rfl rfl
  | number hn => exact keeps_setInteger (hcounted hc) (by simp) _
  | noreply hn => exact keeps_same (hcounted hc) (by simp) rfl rfl rfl
  | dataStart hn => exact ⟨⟨trivial, hc, m.ctx.cs, m.ctx.stack, rfl, hcs, hp⟩, by simp⟩
  | data => exact keeps_data hc (hdata rfl) (by simp)
  | behind => exact keeps_same (hcounted hc) (by simp) rfl rfl rfl
  | other =>
    exact keeps_finish (hcounted trivial) (hzero hc) hcs (fun h => incrKey_not_mem_finish _ h.1) _
  | line n hk =>
    exact keeps_finish (hcounted trivial) hc hcs (fun h => incrKey_not_mem_finish _ h.1) _
  | dataLine k =>
    exact keeps_finish (hcounted trivial) hc hcs (fun h => incrKey_not_mem_finish _ h.1) _

theorem incrKey_mem {s s' : State} (h : Moves s b as s') (hmem : .incrKey ∈ as) :
    s = .afterKey .retrieval ∧ isKeyByte b := by
  cases h with
  | nextKey hb => exact ⟨rfl, hb⟩
  | begin hs hg => exact absurd hmem (by simp [incrKey_not_mem_cmds])
  | letter hg => exact absurd hmem (incrKey_not_mem_cmds _)
  | line hk => exact absurd hmem (incrKey_not_mem_finish _)
  | dataLine => exact absurd hmem (incrKey_not_mem_finish _)
  | _ => simp at hmem

theorem next_nextKey (hb : isKeyByte b) :
    next (.afterKey .retrieval) b = ([.incrKey, .markKey], .inKey .retrieval) := if_pos hb

/-- A byte keeps the number of keys in the table, but for one that begins a key behind 256
others. -/
theorem keeps_feed (hc : m.ctx.Counted) : Keeps (¬ m.Spare p) (m.feed p g) := by
  unfold Parsing.feed
  rcases hb : m.buf[p]? with _ | b
  · exact not_not.2 fun b hb' => by
      rw [hb] at hb'
      cases hb'
  have hspare : ¬ m.Spare p ↔ isKeyByte b ∧ m.ctx.cs = .afterKey .retrieval ∧
      m.ctx.keys.toNat + 1 = maxMultiGet := by
    unfold Parsing.Spare
    simp only [hb, Option.some.injEq, forall_eq', not_forall, not_not, exists_prop]
  rw [hspare]
  simp only []
  by_cases herr : (next m.ctx.cs b).2 = .error
  · rw [if_pos herr]
    rintro ⟨hk, hcs, -⟩
    rw [hcs, next_nextKey hk] at herr
    cases herr
  · rw [if_neg herr]
    obtain ⟨hproper, hsteps⟩ := (moves_next herr).steps hc.proper
    have hkeeps := hsteps.keeps (m := m.setCtx { m.ctx with cs := (next m.ctx.cs b).2 }) (p := p)
      (g := g) (hc.counts.congr rfl rfl) rfl hproper fun hmode => by
        rw [eq_data_of_mode hmode]
        rfl
    have hmem : .incrKey ∈ (next m.ctx.cs b).1 ↔ isKeyByte b ∧ m.ctx.cs = .afterKey .retrieval := by
      constructor
      · intro h
        exact (incrKey_mem (moves_next herr) h).symm
      · rintro ⟨hk, hcs⟩
        rw [hcs, next_nextKey hk]
        exact List.mem_cons_self
    rwa [hmem, and_assoc] at hkeeps

/-- Some bytes keep it, as long as none begins a key behind 256 others. -/
theorem keeps_exec : ∀ (n p : ℕ) {m : Parsing}, m.ctx.Counted →
    Keeps (¬ m.Heeds (fun p m => m.Spare p) g n p) (m.exec g n p)
  | 0, p, m, hc => ⟨hc, not_not.2 trivial⟩
  | n + 1, p, m, hc => by
    have hfeed := keeps_feed (p := p) (g := g) hc
    unfold Parsing.exec Parsing.Heeds
    rcases hx : m.feed p g with m1 | m1 | m1 | m1 <;> rw [hx] at hfeed
    · obtain ⟨hc1, hspare⟩ := hfeed
      have hrest := keeps_exec n (p + 1) hc1
      have hheeds : (m.Spare p ∧ ∀ m', Outcome.ok m1 = .ok m' →
          m'.Heeds (fun p m => m.Spare p) g n (p + 1)) ↔
            m1.Heeds (fun p m => m.Spare p) g n (p + 1) := by
        simp [not_not.1 hspare]
      rw [hheeds]
      exact hrest
    all_goals
      simp only [reduceCtorEq, false_implies, implies_true, and_true]
      exact hfeed

end

end Memtext

namespace TextConn

open Memtext Machine
open Text (text)

variable {o : Options} {g : TextGate} {s u : TextConn} {as : List Act} {a : Act}

/-- The keys of a parser that goes on are in the table. -/
def InTable (s : TextConn) : Prop := s.status = .running → s.ctx.Counted

theorem loop_overrun (hc : s.ctx.Counted) (hrun : s.status = .running) :
    ((loop g s).status ≠ .overrun ↔ s.Heeds (fun p m => m.Spare p) g) ∧ (loop g s).InTable := by
  have hexec : Keeps (¬ s.Heeds (fun p m => m.Spare p) g)
      (execute g s.parsing s.buffer.dataSize s.off) := by
    unfold execute Heeds
    split_ifs with hle
    · rw [Nat.sub_eq_zero_of_le hle]
      exact ⟨hc, not_not.2 trivial⟩
    · exact keeps_exec _ _ hc
  rw [loop_eq_round]
  unfold round
  rcases hx : execute g s.parsing s.buffer.dataSize s.off with m | m | m | m <;>
    rw [hx] at hexec <;> simp only [hx]
  · obtain ⟨hcm, hheeds⟩ := hexec
    have hrun' : s.status ≠ .overrun := by
      rw [hrun]
      decide
    rw [not_not] at hheeds
    split_ifs
    · exact ⟨iff_of_true hrun' hheeds, fun _ => hcm⟩
    · exact ⟨iff_of_true hrun' hheeds, fun _ => hcm⟩
    · exact ⟨iff_of_true hrun' hheeds, fun _ => hcm⟩
  · exact ⟨iff_of_true (by decide) (not_not.1 hexec), fun h => nomatch h⟩
  · exact ⟨iff_of_false (not_not.2 rfl) hexec, fun h => nomatch h⟩
  · exact ⟨iff_of_true (by decide) (not_not.1 hexec), fun h => nomatch h⟩

theorem step_overrun (hi : s.InTable) (hstep : step o s a = some u) :
    u.InTable ∧
      (u.status ≠ .overrun ↔ s.status ≠ .overrun ∧ Guard (fun p m => m.Spare p) o s a) := by
  cases a with
  | answered n =>
    unfold step at hstep
    simp only [] at hstep
    split_ifs at hstep
    cases hstep
    exact ⟨hi, by simp [Guard]⟩
  | badAlloc =>
    unfold step at hstep
    simp only [] at hstep
    split_ifs at hstep with hb
    cases hstep
    exact ⟨(fun h => nomatch h), by simp [Guard, hb.1]⟩
  | readEvent t x =>
    unfold step at hstep
    simp only [] at hstep
    split_ifs at hstep with hr
    have hr := not_not.1 hr
    have hs : s.status ≠ .overrun := by
      rw [hr]
      decide
    rcases hb : s.buffer.reserveBuffer memtextReserveSize initialBufferSize with _ | b
    · simp only [hb, Option.some.injEq] at hstep
      subst hstep
      refine ⟨(fun h => nomatch h), iff_of_true (by simp) ⟨hs, ?_⟩⟩
      rcases x with bytes | _ | errno
      · intro b hb'
        rw [hb] at hb'
        cases hb'
      · trivial
      · trivial
    simp only [hb] at hstep
    split_ifs at hstep
    cases hstep
    rcases x with bytes | _ | errno
    · obtain ⟨hiff, hin⟩ := loop_overrun (g := ⟨o, t⟩)
        (s := ({ s with buffer := b } : TextConn).filled bytes) (hi hr) hr
      refine ⟨hin, hiff.trans ?_⟩
      simp only [Guard, hb, Option.some.injEq, forall_eq', ne_eq, hs, not_false_eq_true, true_and]
    · exact ⟨(fun h => nomatch h), iff_of_true (by simp [received]) ⟨hs, trivial⟩⟩
    · unfold received
      simp only []
      split_ifs
      · exact ⟨hi, iff_of_true hs ⟨hs, trivial⟩⟩
      · exact ⟨(fun h => nomatch h), iff_of_true (by simp) ⟨hs, trivial⟩⟩

/-- The parser stays in its tables in just those runs where no key begins behind 256 others. -/
theorem not_overrun_iff (h : Run (step o) Free init as u) :
    u.status ≠ .overrun ↔ Run (step o) (Guard (fun p m => m.Spare p) o) init as u := by
  have hiff := h.guard_iff (I := InTable) (J := fun s => s.status ≠ .overrun)
    (P := Guard (fun p m => m.Spare p) o) (fun s a t hi hs => (step_overrun hi hs).1)
    (fun s a t hi hs => (step_overrun hi hs).2) (fun _ => ⟨trivial, trivial⟩)
  rw [hiff]
  exact and_iff_right (by decide)

theorem not_overrun_iff_get : ∃ as u, Run (step ⟨true, true⟩) Free init as u ∧
    stream as = text "get a b\r\n" ∧
      (u.status ≠ .overrun ↔
        Run (step ⟨true, true⟩) (Guard (fun p m => m.Spare p) ⟨true, true⟩) init as u) := by
  obtain ⟨r, hr⟩ : ∃ r, Reading.init.feedAll (text "get a b\r\n") = .ok r := ⟨_, rfl⟩
  obtain ⟨as, u, hrun, hst, -⟩ := exists_run (o := ⟨true, true⟩) (text "get a b\r\n") follows_init
    rfl mem_init (by decide) (fun r _ => ⟨0, le_rfl, near_of_le (by decide)⟩) hr
  exact ⟨as, u, hrun, hst, not_overrun_iff hrun⟩

/-! A `get` of 257 keys. -/

/-- So many keys, with a space behind each. -/
def keys (n : ℕ) : Bytes := (List.replicate n [107, 32]).flatten

theorem length_keys (n : ℕ) : (keys n).length = 2 * n := by
  simp [keys, Nat.mul_comm]

/-- The first letter of a key. -/
theorem feed_key {r : Reading} (h : r.cs = .afterKey .retrieval) :
    r.feed 107 = if r.keys.length < maxMultiGet then
      .ok (({ r with cs := .inKey .retrieval, text := [] } : Reading).push 107)
    else .overrun { r with cs := .inKey .retrieval } := by
  unfold Reading.feed
  rw [h]
  show Outcome.andThen (if r.keys.length < maxMultiGet then _ else _) _ = _
  split_ifs <;> rfl

theorem feedAll_keys : ∀ (n : ℕ) (r : Reading), r.cs = .afterKey .retrieval →
    r.keys.length + n ≤ maxMultiGet → ∃ r', r.feedAll (keys n) = .ok r' ∧
      r'.cs = .afterKey .retrieval ∧ r'.keys.length = r.keys.length + n
  | 0, r, h, _ => ⟨r, rfl, h, rfl⟩
  | n + 1, r, h, hle => by
    obtain ⟨r1, hr1, hcs1, hkeys1⟩ : ∃ r1, r.feedAll [107, 32] = .ok r1 ∧
        r1.cs = .afterKey .retrieval ∧ r1.keys.length = r.keys.length + 1 := by
      rw [Reading.feedAll, feed_key h, if_pos (by omega)]
      exact ⟨_, rfl, rfl, List.length_append⟩
    obtain ⟨r', hr', hcs', hkeys'⟩ := feedAll_keys n r1 hcs1 (by omega)
    refine ⟨r', ?_, hcs', by omega⟩
    rw [keys, List.replicate_succ, List.flatten_cons, feedAll_append_of_ok hr1]
    exact hr'

theorem not_overrun_get : ¬ ∀ (o : Options) (as : List Act) (u : TextConn),
    Run (step o) Free init as u → u.status ≠ .overrun := by
  intro hall
  obtain ⟨r0, hr0, hcs0, hkeys0⟩ : ∃ r, Reading.init.feedAll (text "get k ") = .ok r ∧
      r.cs = .afterKey .retrieval ∧ r.keys.length = 1 := ⟨_, rfl, rfl, rfl⟩
  obtain ⟨r, hr, hcs, hkeys⟩ := feedAll_keys 255 r0 hcs0 (by rw [hkeys0]; decide)
  have hread : Reading.init.feedAll (text "get k " ++ keys 255) = .ok r :=
    (feedAll_append_of_ok hr0).trans hr
  have hlen : (text "get k " ++ keys 255).length = 516 := by
    rw [List.length_append, length_keys]
    rfl
  generalize text "get k " ++ keys 255 = st at hread hlen
  obtain ⟨as, s, hrun, -, hs, hstatus, hmem⟩ := exists_run (o := ⟨true, true⟩) st follows_init rfl
    mem_init (by rw [hlen]; decide) (fun r _ => ⟨0, le_rfl, near_of_le (by omega)⟩) hread
  rw [List.nil_append] at hs
  obtain ⟨_, -, -, hreads⟩ := hs.running hstatus
  have hoff := hreads.off_le
  obtain ⟨u, hstep, hu, -⟩ := exists_step (o := ⟨true, true⟩) (b := 107) hs hstatus hmem
    (by omega) fun r _ => near_of_le (by rw [List.length_singleton]; omega)
  have hfeed : r.feedAll [107] = .overrun { r with cs := .inKey .retrieval } := by
    rw [Reading.feedAll, feed_key hcs, if_neg (by rw [hkeys, hkeys0]; decide)]
    rfl
  unfold Follows at hu
  rw [feedAll_append_of_ok hread, hfeed] at hu
  exact hall ⟨true, true⟩ _ u (hrun.append (.cons trivial hstep (.nil u))) hu.2

end TextConn

end Kumofs.Gate
