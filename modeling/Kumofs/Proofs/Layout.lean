import Kumofs.Proofs.TextConn

/-!
# Where a command is in the buffer

Whatever is read, the first key of a command that goes on is in the command, and where there is data
there are eight bytes at least between the key and the data: a space, three numbers with a space
between two of them, and the end of the line.
-/

namespace Kumofs.Gate

namespace Memtext

open Memproto (sizeSub sizeSub_eq)

variable {m m' : Parsing} {c c' : Parser} {start p p' n n' : ℕ} {b : UInt8} {g : TextGate}

/-- The first key is in the command that starts at `start`, `n` bytes before `p` or more. -/
structure Parser.KeyLies (start p n : ℕ) (c : Parser) : Prop where
  start_le : start ≤ (c.keyPos 0).toNat
  room : (c.keyPos 0).toNat + (c.keyLen 0).toNat + n ≤ p

/-- So is the data, behind the key. -/
structure Parser.DataLies (start p : ℕ) (c : Parser) : Prop where
  start_le : start ≤ (c.keyPos 0).toNat
  room : (c.keyPos 0).toNat + (c.keyLen 0).toNat + 8 ≤ c.dataPos.toNat
  le : c.dataPos.toNat ≤ p

def Mode.Lays (start p : ℕ) (c : Parser) : Mode → Prop
  | .idle => True
  | .head => start ≤ p ∧ c.keys = 0
  | .key only => start ≤ (c.keyPos 0).toNat ∧ (c.keyPos 0).toNat ≤ p ∧
      (c.keyPos c.keys.toNat).toNat ≤ p ∧ (only = true → c.keys = 0) ∧
      (c.keys ≠ 0 → (c.keyPos 0).toNat + (c.keyLen 0).toNat ≤ p)
  | .gap n | .number _ n => c.KeyLies start p n
  | .data => c.DataLies start p ∧ UInt64.ofNat (p - c.dataPos.toNat) + c.dataCount = c.bytes ∧
      ∃ s stack, c.stack = s :: stack ∧ s.mode = .done ∧ s.Proper
  | .done => c.DataLies start p ∧ c.dataPos.toNat + c.bytes.toNat ≤ p ∧
      c.dataLen = c.bytes.toUInt32

structure Parser.Laid (start p : ℕ) (c : Parser) : Prop where
  proper : c.cs.Proper
  lays : c.cs.mode.Lays start p c

/-- Where a step of the parser goes on, the command is in the buffer before `p`. -/
def Leads (p : ℕ) : Outcome Parsing → Prop
  | .ok m => m.ctx.Laid m.start p
  | _ => True

section

variable {md md' : Mode} {as : List Action} {q : Option Request}

theorem Parser.KeyLies.mono (h : c.KeyLies start p n) (hpos : c'.keyPos = c.keyPos)
    (hlen : c'.keyLen = c.keyLen) (hn : n' ≤ n + 1) : c'.KeyLies start (p + 1) n' := by
  obtain ⟨hstart, hroom⟩ := h
  constructor <;> rw [hpos]
  · exact hstart
  · rw [hlen]
    omega

theorem Parser.DataLies.mono (h : c.DataLies start p) (hpos : c'.keyPos = c.keyPos)
    (hlen : c'.keyLen = c.keyLen) (hdata : c'.dataPos = c.dataPos) :
    c'.DataLies start (p + 1) := by
  obtain ⟨hstart, hroom, hle⟩ := h
  constructor
  · rw [hpos]
    exact hstart
  · rw [hpos, hlen, hdata]
    exact hroom
  · rw [hdata]
    omega

/-- A byte that leaves the keys and the data where they are. -/
theorem Mode.Lays.gap (h : (Mode.gap n).Lays start p c) (hmode : c'.cs.mode = .gap n')
    (hp : c'.cs.Proper) (hpos : c'.keyPos = c.keyPos) (hlen : c'.keyLen = c.keyLen)
    (hn : n' ≤ n + 1) : c'.Laid start (p + 1) := by
  refine ⟨hp, ?_⟩
  rw [hmode]
  exact Parser.KeyLies.mono h hpos hlen hn

/-- The callbacks leave the state of the machine. -/
theorem cs_of_finish {k : Kind} (h : m.runAll p g k.finish = .ok m') : m'.ctx.cs = m.ctx.cs := by
  cases k with
  | retrieval =>
    change m.doRetrieval p = .ok m' at h
    unfold Parsing.doRetrieval at h
    simp only [] at h
    split_ifs at h
    rw [(call_wrote h).2]
    rfl
  | storage => rw [(call_write h).1]
  | cas => rw [(call_write h).1]
  | delete => rw [(call_wrote h).2]
  | numeric => rw [(call_wrote h).2]
  | other => rw [(call_wrote (q := some (.other m.ctx.command)) h).2]

/-- Behind a command there is nothing to keep. -/
theorem leads_finish (hmode : m.ctx.cs.mode = .idle) (hp : m.ctx.cs.Proper) (k : Kind) :
    Leads (p + 1) (m.runAll p g k.finish) := by
  rcases hx : m.runAll p g k.finish with m' | m' | m' | m'
  · have hcs := cs_of_finish hx
    refine ⟨by rwa [hcs], ?_⟩
    rw [hcs, hmode]
    trivial
  all_goals trivial

theorem leads_cmds (hmode : m.ctx.cs.mode = .head) (hp : m.ctx.cs.Proper) (hle : m.start ≤ p)
    (hkeys : m.ctx.keys = 0) (w : Bytes) : Leads p (m.runAll p' g (cmds w)) := by
  rcases cmds_cases w with hw | ⟨c, hw⟩ <;> rw [hw]
  · refine ⟨hp, ?_⟩
    rw [hmode]
    exact ⟨hle, hkeys⟩
  · refine ⟨hp, ?_⟩
    show m.ctx.cs.mode.Lays _ _ _
    rw [hmode]
    exact ⟨hle, hkeys⟩

/-- A key begins. -/
theorem leads_markKey {only : Bool} (hmode : m.ctx.cs.mode = .key only) (hp : m.ctx.cs.Proper)
    (hlt : p < 2 ^ 63) (hle : m.start ≤ p) (honly : only = true → m.ctx.keys = 0)
    (hroom : m.ctx.keys ≠ 0 → m.ctx.KeyLies m.start p 0) : Leads (p + 1) (m.markKey p) := by
  have hoff : (UInt64.ofNat p).toNat = p := by
    rw [UInt64.toNat_ofNat']
    omega
  unfold Parsing.markKey
  simp only []
  split_ifs with hi
  · refine ⟨hp, ?_⟩
    show m.ctx.cs.mode.Lays _ _ _
    rw [hmode]
    by_cases hzero : m.ctx.keys = 0
    · have hpos : (Function.update m.ctx.keyPos m.ctx.keys.toNat (UInt64.ofNat p)) 0 =
          UInt64.ofNat p := by
        rw [hzero]
        exact Function.update_self _ _ _
      refine ⟨?_, ?_, ?_, honly, fun h => absurd hzero h⟩
      · show m.start ≤ (Function.update m.ctx.keyPos m.ctx.keys.toNat (UInt64.ofNat p) 0).toNat
        rw [hpos, hoff]
        exact hle
      · show (Function.update m.ctx.keyPos m.ctx.keys.toNat (UInt64.ofNat p) 0).toNat ≤ p + 1
        rw [hpos, hoff]
        omega
      · show (Function.update m.ctx.keyPos m.ctx.keys.toNat (UInt64.ofNat p)
          m.ctx.keys.toNat).toNat ≤ p + 1
        rw [Function.update_self, hoff]
        omega
    · obtain ⟨hstart, hkey⟩ := hroom hzero
      have hne : 0 ≠ m.ctx.keys.toNat := fun h => hzero (UInt32.toNat_inj.1 h.symm)
      have hpos : (Function.update m.ctx.keyPos m.ctx.keys.toNat (UInt64.ofNat p)) 0 =
          m.ctx.keyPos 0 := Function.update_of_ne hne _ _
      refine ⟨?_, ?_, ?_, honly, fun _ => ?_⟩
      · show m.start ≤ (Function.update m.ctx.keyPos m.ctx.keys.toNat (UInt64.ofNat p) 0).toNat
        rw [hpos]
        exact hstart
      · show (Function.update m.ctx.keyPos m.ctx.keys.toNat (UInt64.ofNat p) 0).toNat ≤ p + 1
        rw [hpos]
        omega
      · show (Function.update m.ctx.keyPos m.ctx.keys.toNat (UInt64.ofNat p)
          m.ctx.keys.toNat).toNat ≤ p + 1
        rw [Function.update_self, hoff]
        omega
      · show (Function.update m.ctx.keyPos m.ctx.keys.toNat (UInt64.ofNat p) 0).toNat +
          (m.ctx.keyLen 0).toNat ≤ p + 1
        rw [hpos]
        omega
  · trivial

/-- A key ends. -/
theorem leads_key {only : Bool} (h : (Mode.key only).Lays m.start p m.ctx)
    (hmode : m.ctx.cs.mode = .gap n) (hp : m.ctx.cs.Proper) (hlt : p < 2 ^ 63) (hn : n ≤ 1)
    (hn0 : only = false → n = 0) : Leads (p + 1) (m.key p) := by
  obtain ⟨hstart, hpos, hlast, honly, hroom⟩ := h
  unfold Parsing.key
  simp only []
  split_ifs with hi
  · refine ⟨hp, ?_⟩
    show m.ctx.cs.mode.Lays _ _ _
    rw [hmode]
    refine ⟨hstart, ?_⟩
    show (m.ctx.keyPos 0).toNat + (Function.update m.ctx.keyLen m.ctx.keys.toNat
      (UInt32.ofNat (sizeSub p (m.ctx.keyPos m.ctx.keys.toNat).toNat)) 0).toNat + n ≤ p + 1
    by_cases hzero : m.ctx.keys = 0
    · have hlen : (UInt32.ofNat (sizeSub p (m.ctx.keyPos 0).toNat)).toNat ≤
          p - (m.ctx.keyPos 0).toNat := by
        rw [sizeSub_eq hpos (by omega), UInt32.toNat_ofNat']
        exact Nat.mod_le _ _
      rw [hzero]
      show _ + (Function.update m.ctx.keyLen 0 (UInt32.ofNat (sizeSub p
        (m.ctx.keyPos 0).toNat)) 0).toNat + n ≤ p + 1
      rw [Function.update_self]
      omega
    · have hne : 0 ≠ m.ctx.keys.toNat := fun h => hzero (UInt32.toNat_inj.1 h.symm)
      have hfalse : only = false := by
        by_contra ho
        exact hzero (honly (by simpa using ho))
      rw [Function.update_of_ne hne, hn0 hfalse]
      have := hroom hzero
      omega
  · trivial

/-- A byte of data, or the last one. -/
theorem leads_data (h : Mode.data.Lays m.start p m.ctx) (hcs : m.ctx.cs = .data)
    (hlt : p < 2 ^ 63) : Leads (p + 1) (.ok (m.data p)) := by
  obtain ⟨hdata, hcount, s, stack, hstack, hs, hp⟩ := h
  have hle := hdata.le
  have hsub : UInt64.ofNat (p + 1 - m.ctx.dataPos.toNat) =
      UInt64.ofNat (p - m.ctx.dataPos.toNat) + 1 := by
    rw [Nat.succ_sub hle]
    simp
  unfold Leads Parsing.data
  simp only []
  split_ifs with hzero
  · have hbytes : m.ctx.bytes = UInt64.ofNat (p + 1 - m.ctx.dataPos.toNat) := by
      rw [← hcount, hsub, ← UInt64.sub_add_cancel m.ctx.dataCount 1, hzero, UInt64.zero_add]
    have hnat : m.ctx.bytes.toNat = p + 1 - m.ctx.dataPos.toNat := by
      rw [hbytes, UInt64.toNat_ofNat']
      omega
    refine ⟨?_, ?_⟩
    · show (m.ctx.stack.headD .error).Proper
      rw [hstack]
      exact hp
    · show (m.ctx.stack.headD .error).mode.Lays _ _ _
      rw [hstack]
      show s.mode.Lays _ _ _
      rw [hs]
      refine ⟨hdata.mono rfl rfl rfl, ?_, ?_⟩
      · show m.ctx.dataPos.toNat + m.ctx.bytes.toNat ≤ p + 1
        omega
      · show UInt32.ofNat (sizeSub (p + 1) m.ctx.dataPos.toNat) = m.ctx.bytes.toUInt32
        rw [sizeSub_eq (by omega) (by omega), hbytes]
        simp
  · refine ⟨?_, ?_⟩
    · show m.ctx.cs.Proper
      rw [hcs]
      trivial
    · show m.ctx.cs.mode.Lays _ _ _
      rw [hcs]
      refine ⟨hdata.mono rfl rfl rfl, ?_, s, stack, hstack, hs, hp⟩
      show UInt64.ofNat (p + 1 - m.ctx.dataPos.toNat) + (m.ctx.dataCount - 1) = m.ctx.bytes
      rw [hsub, ← hcount, UInt64.add_assoc, UInt64.add_comm 1, UInt64.sub_add_cancel]

theorem setField_keeps (c : Parser) (v : UInt64) (f : Field) : (c.setField v f).cs = c.cs ∧
    (c.setField v f).keyPos = c.keyPos ∧ (c.setField v f).keyLen = c.keyLen := by
  cases f <;> exact ⟨rfl, rfl, rfl⟩

theorem leads_number (f : Field) (h : m.ctx.KeyLies m.start p n) (hmode : m.ctx.cs.mode = .gap n')
    (hp : m.ctx.cs.Proper) (hn : n' ≤ n + 1) : Leads (p + 1) (m.setInteger p f) := by
  have hset : ∀ v, Leads (p + 1) (.ok (m.setCtx (m.ctx.setField v f))) := fun v => by
    obtain ⟨hcs, hpos, hlen⟩ := setField_keeps m.ctx v f
    refine Mode.Lays.gap h ?_ ?_ hpos hlen hn
    · exact (congrArg State.mode hcs).trans hmode
    · exact hcs ▸ hp
  unfold Parsing.setInteger
  simp only []
  split
  · trivial
  · split_ifs
    · exact hset 0
    · trivial
    · split
      · trivial
      · split_ifs
        · trivial
        · exact hset _

/-- A transition of the grammar keeps the command in the buffer. -/
theorem Steps.leads (h : Steps md as md') (hl : md.Lays m.start p m.ctx)
    (hmode : m.ctx.cs.mode = md') (hp : m.ctx.cs.Proper) (hdata : md = .data → m.ctx.cs = .data)
    (hlt : p + 1 < 2 ^ 63) : Leads (p + 1) (m.runAll p g as) := by
  cases h with
  | begin w => exact leads_cmds (m := m.reset p) hmode hp (Nat.le_succ p) rfl w
  | letter w => exact leads_cmds hmode hp (Nat.le_succ_of_le hl.1) hl.2 w
  | word =>
    refine ⟨hp, ?_⟩
    rw [hmode]
    exact ⟨Nat.le_succ_of_le hl.1, hl.2⟩
  | firstKey only =>
    exact leads_markKey hmode hp (by omega) hl.1 (fun _ => hl.2) fun h => absurd hl.2 h
  | keyByte only =>
    obtain ⟨hstart, hpos, hlast, honly, hroom⟩ := hl
    refine ⟨hp, ?_⟩
    rw [hmode]
    exact ⟨hstart, Nat.le_succ_of_le hpos, Nat.le_succ_of_le hlast, honly,
      fun h => Nat.le_succ_of_le (hroom h)⟩
  | keyEnd hn hn0 => exact leads_key hl hmode hp (by omega) hn hn0
  | nextKey n =>
    have hkey : m.ctx.KeyLies m.start p n := hl
    obtain ⟨hstart, hroom⟩ := hkey
    show Leads (p + 1) (m.incrKey.andThen fun m => m.run p g .markKey)
    unfold Parsing.incrKey
    simp only []
    split_ifs
    · trivial
    · have honly : false = true → m.ctx.keys + 1 = 0 := fun h => nomatch h
      exact leads_markKey (m := m.setCtx { m.ctx with keys := m.ctx.keys + 1 }) hmode hp (by omega)
        (show m.start ≤ p by omega) honly
        fun _ => ⟨hstart, (Nat.le_add_right _ n).trans hroom⟩
  | between hn => exact hl.gap hmode hp rfl rfl hn
  | @mark f n n' hn =>
    have hkey : m.ctx.KeyLies m.start p n := hl
    obtain ⟨hcs, hpos, hlen⟩ := setField_keeps m.ctx (UInt64.ofNat p) f
    refine ⟨?_, ?_⟩
    · show ((m.ctx.setField (UInt64.ofNat p) f).cs).Proper
      rwa [hcs]
    · show ((m.ctx.setField (UInt64.ofNat p) f).cs).mode.Lays _ _ _
      rw [hcs, hmode]
      exact hkey.mono hpos hlen hn
  | digit f n =>
    have hkey : m.ctx.KeyLies m.start p n := hl
    refine ⟨hp, ?_⟩
    rw [hmode]
    exact hkey.mono rfl rfl (Nat.le_succ n)
  | number hn => exact leads_number _ hl hmode hp hn
  | noreply hn => exact hl.gap hmode hp rfl rfl hn
  | dataStart hn =>
    have hkey : m.ctx.KeyLies m.start p _ := hl
    obtain ⟨hstart, hroom⟩ := hkey
    have hoff : (UInt64.ofNat (p + 1)).toNat = p + 1 := by
      rw [UInt64.toNat_ofNat']
      omega
    refine ⟨trivial, ⟨⟨hstart, ?_, ?_⟩, ?_, m.ctx.cs, m.ctx.stack, rfl, hmode, hp⟩⟩
    · show _ + _ + 8 ≤ (UInt64.ofNat (p + 1)).toNat
      rw [hoff]
      show (m.ctx.keyPos 0).toNat + (m.ctx.keyLen 0).toNat + 8 ≤ p + 1
      omega
    · exact hoff.le
    · show UInt64.ofNat (p + 1 - (UInt64.ofNat (p + 1)).toNat) + m.ctx.bytes = m.ctx.bytes
      rw [hoff, Nat.sub_self]
      exact UInt64.zero_add _
  | data => exact leads_data hl (hdata rfl) (by omega)
  | behind =>
    obtain ⟨hl, hbytes, hlen⟩ := hl
    refine ⟨hp, ?_⟩
    rw [hmode]
    exact ⟨hl.mono rfl rfl rfl, Nat.le_succ_of_le hbytes, hlen⟩
  | other => exact leads_finish hmode hp .other
  | line n hk => exact leads_finish hmode hp _
  | dataLine k => exact leads_finish hmode hp k

theorem Mode.Lays.setCs (h : md.Lays start p c) (s : State) :
    md.Lays start p { c with cs := s } := by
  cases md with
  | gap n => exact ⟨h.start_le, h.room⟩
  | number f n => exact ⟨h.start_le, h.room⟩
  | data => exact ⟨⟨h.1.start_le, h.1.room, h.1.le⟩, h.2⟩
  | done => exact ⟨⟨h.1.start_le, h.1.room, h.1.le⟩, h.2⟩
  | _ => exact h

/-- A byte keeps it there. -/
theorem leads_feed (h : m.ctx.Laid m.start p) (hlt : m.buf.length < 2 ^ 63) :
    Leads (p + 1) (m.feed p g) := by
  unfold Parsing.feed
  rcases hb : m.buf[p]? with _ | b
  · trivial
  have hp := lt_of_getElem? hb
  simp only []
  by_cases herr : (next m.ctx.cs b).2 = .error
  · rw [if_pos herr]
    trivial
  · rw [if_neg herr]
    obtain ⟨hproper, hsteps⟩ := (moves_next herr).steps h.proper
    refine hsteps.leads (m := m.setCtx { m.ctx with cs := (next m.ctx.cs b).2 }) (h.lays.setCs _)
      rfl hproper (fun hmode => ?_) (by omega)
    rw [eq_data_of_mode hmode]
    rfl

/-- The buffer stays as long as it is. -/
theorem feed_length (h : m.feed p g = .ok m') : m'.buf.length = m.buf.length := by
  unfold Parsing.feed at h
  rcases hb : m.buf[p]? with _ | b <;> simp only [hb] at h
  · cases h
  · split_ifs at h
    have hlen := runAll_length _ h
    exact hlen

theorem Parser.Laid.exec : ∀ (k p : ℕ) {m m' : Parsing}, m.ctx.Laid m.start p →
    m.buf.length < 2 ^ 63 → m.exec g k p = .ok m' →
      m'.ctx.Laid m'.start (p + k) ∧ m'.buf.length = m.buf.length
  | 0, p, m, m', h, _, hx => by
    cases hx
    exact ⟨h, rfl⟩
  | k + 1, p, m, m', h, hlt, hx => by
    unfold Parsing.exec at hx
    have hleads := leads_feed (g := g) h hlt
    rcases hf : m.feed p g with m1 | m1 | m1 | m1 <;> rw [hf] at hx hleads
    · have hlen := feed_length hf
      obtain ⟨hlaid, hlen'⟩ := Parser.Laid.exec k (p + 1) hleads (by omega) hx
      rw [Nat.add_right_comm] at hlaid
      exact ⟨hlaid, hlen'.trans hlen⟩
    all_goals cases hx

end

end Memtext

namespace TextConn

open Memtext Machine

variable {o : Options} {g : TextGate} {s u : TextConn} {as : List Act} {a : Act}

/-- The command that goes on is in the data of the buffer. -/
structure InBuffer (s : TextConn) : Prop where
  wf : s.buffer.Wf
  length_le : s.buffer.mem.length ≤ addressSpace
  laid : s.ctx.Laid s.start s.off

theorem InBuffer.reserved {b : StreamBuffer} (h : InBuffer s)
    (hb : s.buffer.reserveBuffer memtextReserveSize initialBufferSize = some b)
    (hlen : b.mem.length ≤ addressSpace) : InBuffer { s with buffer := b } := by
  obtain ⟨b', hb', hw, -⟩ := reserveBuffer_wf h.wf h.length_le
  obtain rfl := Option.some.inj (hb.symm.trans hb')
  exact ⟨hw, hlen, h.laid⟩

theorem InBuffer.filled {bytes : Bytes} (h : InBuffer s) (hb : bytes.length ≤ s.buffer.free) :
    InBuffer (s.filled bytes) := by
  obtain ⟨hw, -, hm⟩ := StreamBuffer.consumed_wf h.wf hb
  exact ⟨hw, hm.trans_le h.length_le, h.laid⟩

/-- The parser goes over some of the bytes that are behind the offset. -/
theorem InBuffer.exec {k : ℕ} {m : Parsing} (h : InBuffer s)
    (hx : s.parsing.exec g k s.off = .ok m) :
    m.ctx.Laid m.start (s.off + k) ∧ m.buf.length = s.buffer.behind.length :=
  Parser.Laid.exec k s.off (m := s.parsing) h.laid (length_behind_lt h.length_le) hx

theorem InBuffer.loop (h : InBuffer s) (hr : (TextConn.loop g s).status = .running) :
    InBuffer (TextConn.loop g s) := by
  rw [loop_eq_round] at hr ⊢
  unfold round at hr ⊢
  rcases hx : execute g s.parsing s.buffer.dataSize s.off with m | m | m | m <;>
    simp only [hx] at hr ⊢
  · unfold execute at hx
    split_ifs at hx with hle
    · cases hx
      obtain ⟨hw, -, hm⟩ := after_wf (g := g) (m := s.parsing) h.wf rfl
      rw [if_pos hle]
      exact ⟨hw, hm.trans_le h.length_le, h.laid⟩
    · obtain ⟨hlaid, hlen⟩ := h.exec hx
      obtain ⟨hw, -, hm⟩ := after_wf (g := g) h.wf hlen
      have hsize := dataSize_after s g m
      rw [if_neg hle]
      split_ifs with hret
      · obtain ⟨hdw, -⟩ := StreamBuffer.dataUsed_wf hw hsize.ge
        refine ⟨hdw, hm.trans_le h.length_le, hlaid.proper, ?_⟩
        have hcs : m.ctx.cs = .final := by
          unfold ret at hret
          by_contra hcs
          rw [if_neg hcs] at hret
          cases hret
        show m.ctx.cs.mode.Lays _ _ _
        rw [hcs]
        trivial
      · rw [show s.off + (s.buffer.dataSize - s.off) = s.buffer.dataSize by omega] at hlaid
        exact ⟨hw, hm.trans_le h.length_le, hlaid⟩
  all_goals cases hr

theorem step_inBuffer (hi : s.status = .running → InBuffer s) (hstep : step o s a = some u)
    (hu : u.status = .running) : InBuffer u := by
  cases a with
  | answered n =>
    unfold step at hstep
    simp only [] at hstep
    split_ifs at hstep with hn
    cases hstep
    have h := hi hu
    exact ⟨StreamBuffer.decrCount_wf h.wf hn, h.length_le, h.laid⟩
  | badAlloc =>
    unfold step at hstep
    simp only [] at hstep
    split_ifs at hstep
    cases hstep
    cases hu
  | readEvent t x =>
    unfold step at hstep
    simp only [] at hstep
    split_ifs at hstep with hr
    have h := hi (not_not.1 hr)
    rcases hb : s.buffer.reserveBuffer memtextReserveSize initialBufferSize with _ | b <;>
      simp only [hb] at hstep
    · cases hstep
      cases hu
    split_ifs at hstep with hp
    cases hstep
    have hres := h.reserved hb hp.1
    rcases x with bytes | _ | errno
    · exact InBuffer.loop (hres.filled hp.2.2) hu
    · cases hu
    · unfold received at hu ⊢
      simp only [] at hu ⊢
      split_ifs at hu ⊢
      exact hres

theorem run_inBuffer (h : Run (step o) Free init as u) (hu : u.status = .running) : InBuffer u := by
  refine h.inv (I := fun s => s.status = .running → InBuffer s)
    (fun s a t hi _ hstep => step_inBuffer hi hstep) (fun _ => ?_) hu
  refine ⟨StreamBuffer.init_wf (by decide), ?_, trivial, trivial⟩
  show (StreamBuffer.init memtextInitialAllocationSize).mem.length ≤ addressSpace
  rw [StreamBuffer.init, StreamBuffer.malloc, List.length_replicate]
  decide

end TextConn

end Kumofs.Gate
