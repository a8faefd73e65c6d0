import Kumofs.Gate.TextConn
import Kumofs.Lib.Run
import Kumofs.Proofs.Written

/-!
# However a text connection is read

After any reads the connection has made the calls that the reading of the stream makes, and the
parser is where the reading is. One call of the parser on the whole stream does the same, as long as
the offset of an `exptime` has room in its field and no retrieval has more keys than the table.
-/

namespace Kumofs.Gate.TextConn

open Memtext Machine
open Text (text)

variable {o : Options} {g : TextGate} {s u : TextConn} {as pre : List Act} {a : Act}

/-! ## The reads -/

/-- What an action reads of the stream. -/
def Act.bytes : Act → Bytes
  | .readEvent _ (.bytes b) => b
  | _ => []

/-- The stream that was read. -/
def stream (as : List Act) : Bytes := as.flatMap Act.bytes

theorem stream_snoc : stream (pre ++ [a]) = stream pre ++ a.bytes := by
  simp [stream]

/-- `Q` holds of the parser before each of the bytes that it takes in a call. -/
def Heeds (Q : ℕ → Parsing → Prop) (g : TextGate) (s : TextConn) : Prop :=
  s.parsing.Heeds Q g (s.buffer.dataSize - s.off) s.off

/-- The bytes that are read are such that `Q` holds of the parser before each of them. -/
def Guard (Q : ℕ → Parsing → Prop) (o : Options) (s : TextConn) : Act → Prop
  | .readEvent systemTime (.bytes bytes) =>
    ∀ b, s.buffer.reserveBuffer memtextReserveSize initialBufferSize = some b →
      (({ s with buffer := b } : TextConn).filled bytes).Heeds Q ⟨o, systemTime⟩
  | _ => True

/-- The parser is in the data of the buffer where the reading is. -/
structure Reads (n : ℕ) (r : Reading) (s : TextConn) : Prop where
  wf : s.buffer.Wf
  length_le : s.buffer.mem.length ≤ addressSpace
  off : s.off = s.buffer.dataSize
  off_le : s.off ≤ n
  sim : Sim s.off s.parsing r
  ended : r.cs = .final → s.off = 0

/-- The connection has done what a reading of `n` bytes has. -/
def Agrees (n : ℕ) (s : TextConn) : Outcome Reading → Prop
  | .ok r => s.calls = r.calls ∧ (s.status = .closed ∨ s.status = .running ∧ Reads n r s)
  | .convertError r => s.calls = r.calls ∧ s.status = .rejected
  | .overrun r => s.calls = r.calls ∧ s.status = .overrun
  | .fault _ => False

/-- The connection has done what the reading of the stream does. -/
def Follows (st : Bytes) (s : TextConn) : Prop := Agrees st.length s (Reading.init.feedAll st)

theorem length_behind_lt (h : s.buffer.mem.length ≤ addressSpace) :
    s.buffer.behind.length < 2 ^ 63 := by
  unfold addressSpace at h
  unfold StreamBuffer.behind
  rw [List.length_drop]
  omega

theorem follows_init : Follows [] init := by
  have hwf : init.buffer.Wf := StreamBuffer.init_wf (by decide)
  have hlen : init.buffer.mem.length ≤ addressSpace := by
    show (StreamBuffer.init memtextInitialAllocationSize).mem.length ≤ addressSpace
    rw [StreamBuffer.init, StreamBuffer.malloc, List.length_replicate]
    decide
  refine ⟨rfl, .inr ⟨rfl, hwf, hlen, ?_, le_rfl, sim_init (length_behind_lt hlen), fun _ => rfl⟩⟩
  decide

/-- The data before `p` is where it was, and the buffer has more behind it. -/
theorem take_behind {b b' : StreamBuffer} (hw : b.Wf) (hw' : b'.Wf) {x : Bytes}
    (hd : b'.data = b.data ++ x) : b'.behind.take b.dataSize = b.behind.take b.dataSize := by
  have hlen := hw.length_data
  rw [hw.behind_eq, hw'.behind_eq, hd, ← hlen, List.append_assoc, List.take_left' rfl,
    List.take_left' rfl]

theorem releaseTo_iterate {b : StreamBuffer} (h : b.Wf) : ∀ n : ℕ,
    (StreamBuffer.releaseTo^[n] b).Wf ∧ (StreamBuffer.releaseTo^[n] b).mem = b.mem ∧
      (StreamBuffer.releaseTo^[n] b).off = b.off ∧
      (StreamBuffer.releaseTo^[n] b).dataSize = b.dataSize
  | 0 => ⟨h, rfl, rfl, rfl⟩
  | n + 1 => by
    obtain ⟨hw, hm, ho, hd⟩ := releaseTo_iterate h n
    rw [Function.iterate_succ_apply']
    exact ⟨StreamBuffer.releaseTo_wf hw, hm, ho, hd⟩

/-- What the parser leaves of the buffer. -/
theorem after_wf {m : Parsing} (h : s.buffer.Wf) (hlen : m.buf.length = s.buffer.behind.length) :
    (s.after g m).buffer.Wf ∧ (s.after g m).buffer.behind = m.buf ∧
      (s.after g m).buffer.mem.length = s.buffer.mem.length := by
  obtain ⟨hw, hm, ho, -⟩ := releaseTo_iterate h
    ((m.calls.drop s.calls.length).filter fun c => g.holds c.request).length
  generalize hb : StreamBuffer.releaseTo^[((m.calls.drop s.calls.length).filter fun c =>
    g.holds c.request).length] s.buffer = b at hw hm ho
  have hafter : (s.after g m).buffer = b.setBehind s.buffer.off m.buf := by
    rw [← hb]
    rfl
  have hoff : s.buffer.off ≤ s.buffer.mem.length := by
    have := h.off_le
    have := h.length_mem
    omega
  have htake : (b.mem.take s.buffer.off).length = s.buffer.off := by
    rw [List.length_take, hm]
    omega
  have hmem : (b.mem.take s.buffer.off ++ m.buf).length = b.mem.length := by
    rw [List.length_append, htake, hlen, hm, StreamBuffer.behind, List.length_drop]
    omega
  rw [hafter]
  refine ⟨⟨hw.count_pos, hw.le_off, hw.off_le, ?_, ?_⟩, ?_, ?_⟩
  · exact hmem.trans hw.length_mem
  · exact hmem.trans_le hw.bounded
  · unfold StreamBuffer.behind StreamBuffer.setBehind
    simp only [ho]
    exact List.drop_left' htake
  · exact hmem.trans (congrArg List.length hm)

/-- Where the buffer is moved to, or how large it gets, is nothing to the parser. -/
theorem Reads.reserved {n : ℕ} {r : Reading} {b : StreamBuffer} (h : Reads n r s) (hw : b.Wf)
    (hd : b.data = s.buffer.data) (hm : b.mem.length ≤ addressSpace) :
    Reads n r { s with buffer := b } := by
  have hsize : b.dataSize = s.off := by
    rw [← hw.length_data, hd, h.wf.length_data, h.off]
  have hle : s.off ≤ b.behind.length := by
    rw [hw.behind_eq, List.length_append, hw.length_data, hsize]
    omega
  refine ⟨hw, hm, hsize.symm, h.off_le, ?_, h.ended⟩
  refine h.sim.move rfl rfl rfl ?_ hle (length_behind_lt (s := { s with buffer := b }) hm)
  rw [h.off]
  exact take_behind (x := []) h.wf hw (by rw [hd, List.append_nil])

/-- Some bytes of the data were not seen by the parser. -/
structure Unread (bytes : Bytes) (r : Reading) (s : TextConn) : Prop where
  wf : s.buffer.Wf
  length_le : s.buffer.mem.length ≤ addressSpace
  size : s.buffer.dataSize = s.off + bytes.length
  sim : Sim s.off s.parsing r
  take_drop : (s.buffer.behind.drop s.off).take bytes.length = bytes

/-- What is read comes behind the data, and the parser is where it was. -/
theorem Reads.filled {n : ℕ} {r : Reading} {bytes : Bytes} (h : Reads n r s)
    (hb : bytes.length ≤ s.buffer.free) : Unread bytes r (s.filled bytes) := by
  obtain ⟨hw, hd, hm⟩ := StreamBuffer.consumed_wf h.wf hb
  have hlen : (s.filled bytes).buffer.mem.length ≤ addressSpace := hm.trans_le h.length_le
  have hsize : (s.filled bytes).buffer.dataSize = s.off + bytes.length := by
    rw [TextConn.filled, ← hw.length_data, hd, List.length_append, h.wf.length_data, h.off]
  have hdata := h.wf.length_data
  have hbehind : (s.filled bytes).buffer.behind = (s.buffer.data ++ bytes) ++
      (s.filled bytes).buffer.mem.drop (s.filled bytes).buffer.used := by
    rw [← hd]
    exact hw.behind_eq
  have hle : s.off ≤ (s.filled bytes).buffer.behind.length := by
    rw [hbehind, h.off, ← hdata]
    simp only [List.length_append]
    omega
  refine ⟨hw, hlen, hsize, ?_, ?_⟩
  · refine h.sim.move rfl rfl rfl ?_ hle (length_behind_lt hlen)
    rw [h.off]
    exact take_behind h.wf hw hd
  · rw [show (s.filled bytes).off = s.buffer.data.length from h.off.trans hdata.symm, hbehind,
      List.append_assoc, List.drop_left' rfl, List.take_left' rfl]

theorem Unread.execute_eq {r : Reading} {bytes : Bytes} (h : Unread bytes r s) (hne : bytes ≠ []) :
    execute g s.parsing s.buffer.dataSize s.off = s.parsing.exec g bytes.length s.off := by
  have hpos : 0 < bytes.length := List.length_pos_iff.2 hne
  have hsize := h.size
  unfold execute
  rw [if_neg (by omega), hsize, Nat.add_sub_cancel_left]

theorem loop_eq_round (s : TextConn) : loop g s = (round g s).1 := by
  rw [loop, dif_neg (by rw [round_once]; decide)]

/-- A command that has not ended, or that has just, after the bytes that were read. -/
theorem loop_reads {n : ℕ} {r r' : Reading} {bytes : Bytes} {m : Parsing} (h : Unread bytes r s)
    (hne : bytes ≠ []) (hn : s.off + bytes.length ≤ n)
    (hx : execute g s.parsing s.buffer.dataSize s.off = .ok m)
    (hsim : Sim (s.off + bytes.length) m r') (hlen : m.buf.length = s.parsing.buf.length) :
    (loop g s).calls = r'.calls ∧ (loop g s).status = s.status ∧ Reads n r' (loop g s) ∧
      (loop g s).buffer.mem.length = s.buffer.mem.length := by
  have hpos : 0 < bytes.length := List.length_pos_iff.2 hne
  obtain ⟨hw, hbehind, hmem⟩ := after_wf (g := g) h.wf hlen
  have hle : (s.after g m).buffer.mem.length ≤ addressSpace := hmem.trans_le h.length_le
  have hsize : (s.after g m).buffer.dataSize = s.off + bytes.length := by
    rw [dataSize_after, h.size]
  rw [loop_eq_round]
  unfold round
  simp only [hx]
  rw [if_neg (by rw [h.size]; omega), h.size]
  split_ifs with hret
  · obtain ⟨hdw, hdd⟩ := StreamBuffer.dataUsed_wf hw hsize.ge
    have hzero : ((s.after g m).buffer.dataUsed (s.off + bytes.length)).dataSize = 0 := by
      rw [← hdw.length_data, hdd, List.length_drop, hw.length_data, hsize, Nat.sub_self]
    have hcs : r'.cs = .final := by
      unfold ret at hret
      rw [← hsim.cs]
      by_contra hcs
      rw [if_neg hcs] at hret
      cases hret
    refine ⟨hsim.calls, rfl, ⟨hdw, hle, hzero.symm, Nat.zero_le _, ?_, fun _ => rfl⟩, hmem⟩
    exact hsim.idle (by rw [hcs]; rfl) (length_behind_lt hle)
  · have hparsing : ({ s.after g m with off := s.off + bytes.length } : TextConn).parsing = m := by
      show (⟨m.ctx, (s.after g m).buffer.behind, m.start, m.calls⟩ : Parsing) = m
      rw [hbehind]
    refine ⟨hsim.calls, rfl, ⟨hw, hle, hsize.symm, hn, ?_, fun hcs => ?_⟩, hmem⟩
    · rw [hparsing]
      exact hsim
    · refine absurd ?_ hret
      unfold ret
      rw [if_pos (hsim.cs.trans hcs)]

/-- The parser goes over the bytes that are behind the offset. -/
theorem loop_agrees {n : ℕ} {r : Reading} {bytes : Bytes} (h : Unread bytes r s)
    (hrun : s.status = .running) (hne : bytes ≠ []) (hnear : Near s.off bytes r)
    (hn : s.off + bytes.length ≤ n) : Agrees n (loop g s) (r.feedAll bytes) ∧
      ∀ r', r.feedAll bytes = .ok r' → (loop g s).status = .running ∧
        (loop g s).off ≤ s.off + bytes.length ∧
          (loop g s).buffer.mem.length = s.buffer.mem.length := by
  have hmatch := h.sim.exec (g := g) bytes h.take_drop hnear
  rw [← h.execute_eq hne] at hmatch
  rcases hx : execute g s.parsing s.buffer.dataSize s.off with m | m | m | m <;>
    rcases hy : r.feedAll bytes with r' | r' | r' | r' <;> rw [hx, hy] at hmatch
  · obtain ⟨hsim, hlen, -⟩ := hmatch
    obtain ⟨hcalls, hstatus, hreads, hmem⟩ := loop_reads h hne le_rfl hx hsim hlen
    have hrun' := hstatus.trans hrun
    have hoff := hreads.off_le
    exact ⟨⟨hcalls, .inr ⟨hrun', { hreads with off_le := hoff.trans hn }⟩⟩,
      fun _ _ => ⟨hrun', hoff, hmem⟩⟩
  all_goals first
    | exact hmatch.elim
    | refine ⟨?_, fun _ h => nomatch h⟩
      rw [loop_eq_round, round]
      simp only [hx]
      exact ⟨hmatch, rfl⟩

/-! ## Runs -/

/-- A buffer of a process has room for more, or there is no memory for it. -/
theorem reserveBuffer_wf {b : StreamBuffer} (h : b.Wf) (hle : b.mem.length ≤ addressSpace) :
    ∃ b', b.reserveBuffer memtextReserveSize initialBufferSize = some b' ∧ b'.Wf ∧
      b'.data = b.data ∧ memtextReserveSize ≤ b'.free := by
  have hused := h.length_mem
  have hsize := h.dataSize_eq
  have hL : b.dataSize + memtextReserveSize + initialBufferSize + countSize ≤ 2 ^ 48 := by
    unfold addressSpace at hle
    unfold memtextReserveSize initialBufferSize countSize
    omega
  obtain ⟨b', hb, hw, hd, hfree, -⟩ := StreamBuffer.reserveBuffer_some h hL (by decide)
    (by decide) (by unfold addressSpace at hle; omega)
  exact ⟨b', hb, hw, hd, hfree⟩

theorem Reads.answered {n k : ℕ} {r : Reading} (h : Reads n r s) (hk : k < s.buffer.count) :
    Reads n r { s with buffer := s.buffer.decrCount k } :=
  ⟨StreamBuffer.decrCount_wf h.wf hk, h.length_le, h.off, h.off_le, h.sim, h.ended⟩

/-- Of a connection that reads no more. -/
theorem Agrees.stays {n : ℕ} {x : Outcome Reading} (h : Agrees n s x) (hcalls : u.calls = s.calls)
    (hstatus : u.status = s.status) (hreads : ∀ r, Reads n r s → Reads n r u) : Agrees n u x := by
  rcases x with r | r | r | r
  · refine ⟨hcalls.trans h.1, ?_⟩
    rw [hstatus]
    exact h.2.imp_right fun ⟨hr, hreads'⟩ => ⟨hr, hreads r hreads'⟩
  · exact ⟨hcalls.trans h.1, hstatus.trans h.2⟩
  · exact ⟨hcalls.trans h.1, hstatus.trans h.2⟩
  · exact h.elim

/-- A connection that reads on is where a reading is that has not ended. -/
theorem Follows.running {st : Bytes} (h : Follows st s) (hr : s.status = .running) :
    ∃ r, Reading.init.feedAll st = .ok r ∧ s.calls = r.calls ∧ Reads st.length r s := by
  unfold Follows at h
  rcases hx : Reading.init.feedAll st with r | r | r | r <;> rw [hx] at h
  · obtain ⟨hcalls, hclosed | ⟨-, hreads⟩⟩ := h
    · rw [hr] at hclosed
      cases hclosed
    · exact ⟨r, rfl, hcalls, hreads⟩
  · have hstatus := h.2
    rw [hr] at hstatus
    cases hstatus
  · have hstatus := h.2
    rw [hr] at hstatus
    cases hstatus
  · exact h.elim

theorem closes {st : Bytes} {r : Reading} (hx : Reading.init.feedAll st = .ok r)
    (hs : s.calls = r.calls) (hcalls : u.calls = s.calls) (hu : u.status = .closed) :
    Follows st u := by
  unfold Follows
  rw [hx]
  exact ⟨hcalls.trans hs, .inl hu⟩

theorem bytes_of_stopped (h : s.status ≠ .running) (hstep : step o s a = some u) :
    a.bytes = [] := by
  cases a with
  | readEvent t x =>
    rw [step, if_pos h] at hstep
    cases hstep
  | badAlloc => rfl
  | answered n => rfl

/-- A step keeps the connection with the reading, where no `exptime` begins too far on. -/
theorem follows_step {st : Bytes} (h : Follows st s)
    (hnear : ∀ r, Reading.init.feedAll st = .ok r → Near s.off a.bytes r)
    (hstep : step o s a = some u) : Follows (st ++ a.bytes) u := by
  cases a with
  | answered n =>
    unfold step at hstep
    simp only [] at hstep
    split_ifs at hstep with hn
    cases hstep
    rw [show Act.bytes (.answered n) = [] from rfl, List.append_nil]
    exact h.stays rfl rfl fun r hr => hr.answered hn
  | badAlloc =>
    unfold step at hstep
    simp only [] at hstep
    split_ifs at hstep with hb
    cases hstep
    rw [show Act.bytes .badAlloc = [] from rfl, List.append_nil]
    obtain ⟨r, hx, hcalls, -⟩ := h.running hb.1
    exact closes hx hcalls rfl rfl
  | readEvent t x =>
    unfold step at hstep
    simp only [] at hstep
    split_ifs at hstep with hr
    have hr := not_not.1 hr
    obtain ⟨r, hx, hcalls, hreads⟩ := h.running hr
    obtain ⟨b, hb, hw, hd, -⟩ := reserveBuffer_wf hreads.wf hreads.length_le
    simp only [hb] at hstep
    split_ifs at hstep with hposs
    cases hstep
    have hreads' := hreads.reserved hw hd hposs.1
    rcases x with bytes | _ | errno
    · unfold Follows
      rw [feedAll_append, hx]
      refine (loop_agrees (hreads'.filled hposs.2.2) hr hposs.2.1 (hnear r hx) ?_).1
      rw [List.length_append]
      exact Nat.add_le_add_right hreads.off_le _
    · rw [show Act.bytes (.readEvent t .eof) = [] from rfl, List.append_nil]
      exact closes hx hcalls rfl rfl
    · rw [show Act.bytes (.readEvent t (.failed errno)) = [] from rfl, List.append_nil]
      unfold received
      simp only []
      split_ifs with herr
      · unfold Follows
        rw [hx]
        exact ⟨hcalls, .inr ⟨hr, hreads'⟩⟩
      · exact closes hx hcalls rfl rfl

theorem follows_run (h : Run (step o) Free s as u) : ∀ st, Follows st s →
    Near 0 (st ++ stream as) .init → Follows (st ++ stream as) u := by
  induction h with
  | nil s =>
    intro st hs _
    rw [show stream [] = [] from rfl, List.append_nil]
    exact hs
  | @cons s v u a as _ hstep _ ih =>
    intro st hs hnear
    have happ : st ++ stream (a :: as) = (st ++ a.bytes) ++ stream as := by
      simp [stream]
    have hstep' : Follows (st ++ a.bytes) v := by
      refine follows_step hs (fun r hr => ?_) hstep
      by_cases hrun : s.status = .running
      · obtain ⟨r', hr', -, hreads⟩ := hs.running hrun
        have hle := hreads.off_le
        have hright := (hnear.right hr).mono (show s.off ≤ 0 + st.length by omega)
        rw [show stream (a :: as) = a.bytes ++ stream as from rfl] at hright
        exact hright.left
      · rw [bytes_of_stopped hrun hstep]
        trivial
    rw [happ] at hnear ⊢
    exact ih _ hstep' hnear

/-! ## A stream that comes byte by byte -/

/-- A buffer that is not too large has room for a byte. -/
theorem Reads.room {n : ℕ} {r : Reading} (h : Reads n r s) (hmem : s.buffer.mem.length ≤ 2 ^ 41)
    (hoff : s.off ≤ 2 ^ 39) : ∃ b,
      s.buffer.reserveBuffer memtextReserveSize initialBufferSize = some b ∧ b.Wf ∧
        b.data = s.buffer.data ∧ b.mem.length ≤ 2 ^ 41 ∧
          ∀ x : UInt8, BinaryConn.Possible b (.bytes [x]) := by
  have hsize := h.off
  have hL : s.buffer.dataSize + memtextReserveSize + initialBufferSize + countSize ≤ 2 ^ 40 := by
    unfold memtextReserveSize initialBufferSize countSize
    omega
  obtain ⟨b, hb, hw, hd, hfree, hm⟩ := StreamBuffer.reserveBuffer_some h.wf hL (by decide)
    (by decide) (by omega)
  refine ⟨b, hb, hw, hd, by omega, fun x => ⟨by simp, ?_⟩⟩
  unfold memtextReserveSize at hfree
  rw [List.length_singleton]
  omega

/-- A byte is read. -/
theorem exists_step {st : Bytes} {b : UInt8} (h : Follows st s)
    (hrun : s.status = .running) (hmem : s.buffer.mem.length ≤ 2 ^ 41) (hst : st.length ≤ 2 ^ 39)
    (hnear : ∀ r, Reading.init.feedAll st = .ok r → Near s.off [b] r) :
    ∃ u, step o s (.readEvent 0 (.bytes [b])) = some u ∧ Follows (st ++ [b]) u ∧
      ∀ r, Reading.init.feedAll (st ++ [b]) = .ok r →
        u.status = .running ∧ u.off ≤ s.off + 1 ∧ u.buffer.mem.length ≤ 2 ^ 41 := by
  obtain ⟨r', hr', -, hreads⟩ := h.running hrun
  have hle := hreads.off_le
  obtain ⟨b', hb, hw, hd, hm, hposs⟩ := hreads.room hmem (by omega)
  have hle' : b'.mem.length ≤ addressSpace := hm.trans (by decide)
  have hposs := hposs b
  have hstep : step o s (.readEvent 0 (.bytes [b])) =
      some (loop ⟨o, 0⟩ (({ s with buffer := b' } : TextConn).filled [b])) := by
    unfold step
    simp only [hb]
    rw [if_neg (by simp [hrun]), if_pos ⟨hle', hposs⟩]
    rfl
  have hfilled := (hreads.reserved hw hd hle').filled hposs.2
  obtain ⟨-, hloop⟩ := loop_agrees (g := ⟨o, 0⟩) hfilled hrun (by simp) (hnear r' hr') le_rfl
  refine ⟨_, hstep, follows_step (a := .readEvent 0 (.bytes [b])) h hnear hstep, fun r hr => ?_⟩
  rw [feedAll_append, hr'] at hr
  obtain ⟨hrun', hoff', hlen⟩ := hloop r hr
  refine ⟨hrun', hoff', ?_⟩
  have hput := (StreamBuffer.consumed_wf hw hposs.2).2.2
  rw [hlen]
  exact hput.trans_le hm

/-- A stream of commands can be read. -/
theorem exists_run : ∀ (bs : Bytes) {st : Bytes} {s : TextConn} {r : Reading}, Follows st s →
    s.status = .running → s.buffer.mem.length ≤ 2 ^ 41 → st.length + bs.length ≤ 2 ^ 39 →
    (∀ r, Reading.init.feedAll st = .ok r → ∃ p, s.off ≤ p ∧ Near p bs r) →
    Reading.init.feedAll (st ++ bs) = .ok r →
    ∃ as u, Run (step o) Free s as u ∧ stream as = bs ∧ Follows (st ++ bs) u ∧
      u.status = .running ∧ u.buffer.mem.length ≤ 2 ^ 41
  | [], st, s, r, h, hrun, hmem, _, _, _ =>
    ⟨[], s, .nil s, rfl, by rwa [List.append_nil], hrun, hmem⟩
  | b :: bs, st, s, r, h, hrun, hmem, hlen, hnear, hr => by
    rw [List.length_cons] at hlen
    have happ : st ++ b :: bs = (st ++ [b]) ++ bs := by simp
    rw [happ] at hr ⊢
    obtain ⟨r1, hr1⟩ : ∃ r1, Reading.init.feedAll (st ++ [b]) = .ok r1 := by
      rw [feedAll_append] at hr
      rcases hx : Reading.init.feedAll (st ++ [b]) with r1 | r1 | r1 | r1
      · exact ⟨r1, rfl⟩
      all_goals
        rw [hx] at hr
        cases hr
    obtain ⟨v, hstep, hv, hv1⟩ := exists_step (o := o) h hrun hmem (by omega)
      (fun r' hr' => by
        obtain ⟨p, hle, hnear⟩ := hnear r' hr'
        have hb : Near p ([b] ++ bs) r' := hnear
        exact hb.left.mono hle)
    obtain ⟨hvrun, hvoff, hvmem⟩ := hv1 r1 hr1
    obtain ⟨as, u, hrun', hst, hu, hustatus, humem⟩ := exists_run bs hv hvrun hvmem
      (by rw [List.length_append, List.length_singleton]; omega) (fun r' hr' => by
        obtain ⟨r0, hr0, -, -⟩ := h.running hrun
        obtain ⟨p, hle, hnear⟩ := hnear r0 hr0
        rw [feedAll_append_of_ok hr0] at hr'
        have hfeed : r0.feed b = .ok r' := by
          rw [← hr', ← andThen_ok (r0.feed b)]
          rfl
        exact ⟨p + 1, by omega, hnear.2 r' hfeed⟩) hr
    exact ⟨.readEvent 0 (.bytes [b]) :: as, u, .cons trivial hstep hrun',
      by rw [← hst]; rfl, hu, hustatus, humem⟩

theorem near_of_le : ∀ {bs : Bytes} {p : ℕ} {r : Reading}, p + bs.length ≤ 2 ^ 32 → Near p bs r
  | [], _, _, _ => trivial
  | b :: bs, p, r, h => by
    rw [List.length_cons] at h
    exact ⟨fun _ => by omega, fun r' _ => near_of_le (by omega)⟩

theorem mem_init : init.buffer.mem.length ≤ 2 ^ 41 := by
  show (StreamBuffer.init memtextInitialAllocationSize).mem.length ≤ 2 ^ 41
  rw [StreamBuffer.init, StreamBuffer.malloc, List.length_replicate]
  decide

/-! ## One call of the parser -/

/-- A connection and one call of the parser end alike: after the same calls the stream has ended, or
its next command is rejected. -/
def Alike (u : TextConn) : Outcome Parsing → Prop
  | .ok m => u.calls = m.calls ∧ (u.status = .closed ∨ u.status = .running ∧ u.ctx.cs = m.ctx.cs)
  | .convertError m => u.calls = m.calls ∧ u.status = .rejected
  -- the parser goes on with what it has written behind the tables
  | .overrun _ | .fault _ => False

theorem Agrees.alike {n p : ℕ} {m : Parsing} {x : Outcome Parsing} {y : Outcome Reading}
    (h : Agrees n u y) (hm : Matches p m x y) (hy : ∀ r, y ≠ .overrun r) : Alike u x := by
  rcases x with m' | m' | m' | m' <;> rcases y with r' | r' | r' | r'
  · obtain ⟨hcalls, hu⟩ := h
    refine ⟨hcalls.trans hm.1.calls.symm, hu.imp_right fun ⟨hrun, hreads⟩ => ⟨hrun, ?_⟩⟩
    exact hreads.sim.cs.trans hm.1.cs.symm
  all_goals first
    | exact hm.elim
    | exact absurd rfl (hy r')
    | exact ⟨h.1.trans hm.symm, h.2⟩

/-- However the stream is read, the calls are those that one call of the parser makes on the whole
of it. -/
theorem read_alike (h : Run (step o) Free init as u) (hnear : Near 0 (stream as) .init)
    (hkeys : FewKeys (stream as) .init) (hlen : (stream as).length < 2 ^ 63) :
    Alike u (execute g ⟨.init, stream as, 0, []⟩ (stream as).length 0) := by
  have hfollows : Follows (stream as) u := follows_run h [] follows_init hnear
  have hmatch := (sim_init hlen).exec (g := g) (stream as) (by simp) hnear
  have hexec : execute g ⟨.init, stream as, 0, []⟩ (stream as).length 0 =
      Parsing.exec g (stream as).length 0 ⟨.init, stream as, 0, []⟩ := by
    unfold execute
    split_ifs with h0
    · rw [Nat.le_zero.1 h0]
      rfl
    · rfl
  rw [hexec]
  exact hfollows.alike hmatch hkeys.ne_overrun

/-- A `set` with an `exptime`, and a `get` of two keys. -/
def setGet : Bytes := text "set k 0 7 3\r\nabc\r\nget k l\r\n"

theorem read_alike_setGet : ∃ as u, Run (step ⟨true, true⟩) Free init as u ∧
    stream as = setGet ∧ u.calls.length = 2 ∧
      Alike u (execute ⟨⟨true, true⟩, 0⟩ ⟨.init, stream as, 0, []⟩ (stream as).length 0) := by
  obtain ⟨r, hr, hcalls⟩ : ∃ r, Reading.init.feedAll setGet = .ok r ∧ r.calls.length = 2 :=
    ⟨_, rfl, rfl⟩
  obtain ⟨as, u, hrun, hst, hu, hstatus, -⟩ := exists_run (o := ⟨true, true⟩) setGet follows_init
    rfl mem_init (by decide) (fun r _ => ⟨0, le_rfl, near_of_le (by decide)⟩) hr
  obtain ⟨r', hr', hucalls, -⟩ := hu.running hstatus
  obtain rfl : r = r' := Outcome.ok.inj (hr.symm.trans hr')
  refine ⟨as, u, hrun, hst, hucalls ▸ hcalls, read_alike hrun ?_ ?_ ?_⟩
  · rw [hst]
    exact near_of_le (by decide)
  · rw [hst]
    decide +kernel
  · rw [hst]
    decide

/-! A key of 4 GiB is read, and a `delete` with an `exptime` after it. -/

theorem feedAll_key (k : Kind) : ∀ (n : ℕ) (r : Reading), r.cs = .inKey k →
    r.feedAll (List.replicate n 97) = .ok { r with
      text := r.text ++ List.replicate n 97
      line := r.line ++ List.replicate n 97 }
  | 0, r, _ => by simp [Reading.feedAll]
  | n + 1, r, h => by
    have hfeed : r.feed 97 = .ok (r.push 97) := by
      unfold Reading.feed
      rw [h]
      show Outcome.ok (({ r with cs := .inKey k } : Reading).push 97) = _
      rw [← h]
    rw [List.replicate_succ, Reading.feedAll, hfeed]
    show (r.push 97).feedAll (List.replicate n 97) = _
    rw [feedAll_key k n (r.push 97) h]
    simp [Reading.push]

/-- A `get` of a key of `n + 1` letters. -/
def longGet (n : ℕ) : Bytes := text "get a" ++ (List.replicate n 97 ++ [13, 10])

theorem longGet_ok (n : ℕ) : ∃ r, Reading.init.feedAll (longGet n) = .ok r ∧ r.cs = .final ∧
    r.calls.length = 1 := by
  obtain ⟨r, hr, hcs⟩ : ∃ r, Reading.init.feedAll (text "get a") = .ok r ∧
      r.cs = .inKey .retrieval := ⟨_, rfl, rfl⟩
  rw [longGet, feedAll_append_of_ok hr, feedAll_append_of_ok (feedAll_key .retrieval n r hcs)]
  cases hr
  exact ⟨_, rfl, rfl, rfl⟩

theorem deleteKey_ok (r : Reading) (h : r.cs = .final) :
    ∃ r', r.feedAll (text "delete k ") = .ok r' ∧ r'.cs = .afterKey .delete ∧
      r'.calls = r.calls := by
  obtain ⟨cs, stack, command, keys, numbers, noreply, text, left, data, line, calls⟩ := r
  subst h
  exact ⟨_, rfl, rfl, rfl⟩

theorem delete_ok (r : Reading) (h : r.cs = .final) :
    ∃ r' c, r.feedAll (text "delete k " ++ [55, 13, 10]) = .ok r' ∧ r'.calls = r.calls ++ [c] := by
  obtain ⟨cs, stack, command, keys, numbers, noreply, text, left, data, line, calls⟩ := r
  subst h
  exact ⟨_, _, rfl, rfl⟩

/-- The offset of the `exptime` is kept as 0, where no number is. -/
theorem delete_rejected {m : Parsing} (hcs : m.ctx.cs = .afterKey .delete)
    (h0 : m.buf[0]? = some 103) (h1 : m.buf[2 ^ 32]? = some 55) (h2 : m.buf[2 ^ 32 + 1]? = some 13)
    (k : ℕ) : ∃ m', m.exec g (k + 2) (2 ^ 32) = .convertError m' ∧ m'.calls = m.calls := by
  have hmark : m.feed (2 ^ 32) g =
      .ok ((m.setCtx { m.ctx with cs := .digits .delete .exptime }).mark (2 ^ 32) .exptime) := by
    unfold Parsing.feed
    simp only [h1, hcs]
    rfl
  have hnumber : ∀ m1 : Parsing, m1.ctx.cs = .digits .delete .exptime → m1.ctx.exptime = 0 →
      m1.buf = m.buf → ∃ m', m1.feed (2 ^ 32 + 1) g = .convertError m' ∧ m'.calls = m1.calls :=
    fun m1 hcs1 hexp hbuf => by
      have hinteger : ∀ m2 : Parsing, m2.ctx.exptime = 0 → m2.buf = m.buf →
          m2.setInteger (2 ^ 32 + 1) .exptime = .convertError m2 := fun m2 hexp2 hbuf2 => by
        have hpos : m2.ctx.field .exptime = 0 := by
          rw [Parser.field, hexp2]
          rfl
        unfold Parsing.setInteger
        simp only [hpos, hbuf2, h0]
        rw [if_neg (by decide), if_pos (by decide)]
      unfold Parsing.feed
      simp only [hbuf, h2, hcs1]
      refine ⟨m1.setCtx { m1.ctx with cs := .cr .delete }, ?_, rfl⟩
      exact hinteger _ hexp hbuf
  obtain ⟨m', hm', hcalls⟩ := hnumber
    ((m.setCtx { m.ctx with cs := .digits .delete .exptime }).mark (2 ^ 32) .exptime) rfl
    (by decide : (UInt64.ofNat (2 ^ 32)).toUInt32 = 0) rfl
  refine ⟨m', ?_, hcalls⟩
  show (m.feed (2 ^ 32) g).andThen (fun m => m.exec g (k + 1) (2 ^ 32 + 1)) = _
  rw [hmark]
  show (Parsing.feed _ (2 ^ 32 + 1) g).andThen _ = _
  rw [hm']
  rfl

theorem length_longGet (n : ℕ) : (longGet n).length = n + 7 := by
  rw [longGet, List.length_append, List.length_append, List.length_replicate,
    show (text "get a").length = 5 by decide]
  simp only [List.length_cons, List.length_nil]
  omega

theorem length_deleteKey : (text "delete k ").length = 9 := by decide

/-- One call on the whole of the stream rejects the `delete`. -/
theorem longGet_rejected {n : ℕ} (h : n + 16 = 2 ^ 32) (hg : ∀ f e, g.written f e = []) :
    ∃ m', execute g ⟨.init, longGet n ++ (text "delete k " ++ [55, 13, 10]), 0, []⟩
      (longGet n ++ (text "delete k " ++ [55, 13, 10])).length 0 = .convertError m' ∧
        m'.calls.length = 1 := by
  have hlen : (longGet n ++ text "delete k ").length = 2 ^ 32 := by
    rw [List.length_append, length_longGet, length_deleteKey]
    omega
  have happ : longGet n ++ (text "delete k " ++ [55, 13, 10]) =
      (longGet n ++ text "delete k ") ++ [55, 13, 10] := by rw [List.append_assoc]
  obtain ⟨r, hr, hcs, hcalls⟩ := longGet_ok n
  obtain ⟨r', hr', hcs', hcalls'⟩ := deleteKey_ok r hcs
  have hread : Reading.init.feedAll (longGet n ++ text "delete k ") = .ok r' :=
    (feedAll_append_of_ok hr).trans hr'
  have hhead : (longGet n ++ text "delete k ")[0]? = some 103 := rfl
  rw [happ]
  generalize longGet n ++ text "delete k " = pre at hlen hread hhead
  have hsim : Sim 0 ⟨.init, pre ++ [55, 13, 10], 0, []⟩ .init :=
    sim_init (by rw [List.length_append, hlen]; decide)
  have hmatch := hsim.exec (g := g) pre (by simp) (near_of_le (by omega))
  rw [hread, hlen] at hmatch
  rcases hx : Parsing.exec g (2 ^ 32) 0 ⟨.init, pre ++ [55, 13, 10], 0, []⟩ with m | m | m | m <;>
    rw [hx] at hmatch
  · have hbuf : m.buf = pre ++ [55, 13, 10] := exec_buf hg _ _ hx
    obtain ⟨m', hm', hcalls''⟩ := delete_rejected (g := g) (m := m) (hmatch.1.cs.trans hcs')
      (by rw [hbuf, List.getElem?_append_left (by omega), hhead])
      (by rw [hbuf, List.getElem?_append_right (by omega), hlen]; rfl)
      (by rw [hbuf, List.getElem?_append_right (by omega), hlen]; rfl) 1
    refine ⟨m', ?_, by rw [hcalls'', hmatch.1.calls, hcalls', hcalls]⟩
    have hexec : execute g ⟨.init, pre ++ [55, 13, 10], 0, []⟩ (pre ++ [55, 13, 10]).length 0 =
        Parsing.exec g (2 ^ 32 + 3) 0 ⟨.init, pre ++ [55, 13, 10], 0, []⟩ := by
      unfold execute
      rw [if_neg (by simp), List.length_append, hlen]
      rfl
    rw [hexec, exec_add, hx, Nat.zero_add]
    exact hm'
  all_goals exact hmatch.elim

/-- Byte by byte both commands are read. -/
theorem longGet_read {n : ℕ} (h : n + 16 = 2 ^ 32) : ∃ as u, Run (step o) Free init as u ∧
    stream as = longGet n ++ (text "delete k " ++ [55, 13, 10]) ∧ u.calls.length = 2 := by
  have hlen := length_longGet n
  obtain ⟨r, hr, hcs, hcalls⟩ := longGet_ok n
  obtain ⟨r', c, hr', hcalls'⟩ := delete_ok r hcs
  have hboth : Reading.init.feedAll (longGet n ++ (text "delete k " ++ [55, 13, 10])) = .ok r' :=
    (feedAll_append_of_ok hr).trans hr'
  obtain ⟨as, s, hrun, hst, hs, hstatus, hmem⟩ := exists_run (o := o) (longGet n) follows_init rfl
    mem_init (by rw [List.length_nil]; omega) (fun r hr => ⟨0, le_rfl, near_of_le (by omega)⟩) hr
  obtain ⟨r1, hr1, -, hreads⟩ := hs.running hstatus
  obtain rfl : r = r1 := by
    rw [List.nil_append, hr] at hr1
    cases hr1
    rfl
  obtain ⟨bs, u, hrun', hst', hu, hustatus, -⟩ := exists_run (o := o)
    (text "delete k " ++ [55, 13, 10]) hs hstatus hmem
    (by rw [List.nil_append, hlen, List.length_append, length_deleteKey]
        simp only [List.length_cons, List.length_nil]
        omega)
    (fun r _ => ⟨0, (hreads.ended hcs).le, near_of_le (by decide)⟩) hboth
  obtain ⟨r2, hr2, hucalls, -⟩ := hu.running hustatus
  obtain rfl : r' = r2 := by
    rw [List.nil_append, hboth] at hr2
    cases hr2
    rfl
  refine ⟨as ++ bs, u, hrun.append hrun', ?_, ?_⟩
  · rw [stream, List.flatMap_append]
    exact congrArg₂ _ hst hst'
  · rw [hucalls, hcalls', List.length_append, hcalls]
    rfl

theorem not_read_alike : ¬ ∀ (o : Options) (g : TextGate) (as : List Act) (u : TextConn),
    Run (step o) Free init as u → (stream as).length < 2 ^ 63 →
      Alike u (execute g ⟨.init, stream as, 0, []⟩ (stream as).length 0) := by
  intro hall
  have hn : (2 ^ 32 - 16) + 16 = 2 ^ 32 := by decide
  have hg : ∀ f e, (⟨⟨false, false⟩, 0⟩ : TextGate).written f e = [] := fun f e => by
    unfold TextGate.written envelope
    simp
  obtain ⟨as, u, hrun, hst, hcalls⟩ := longGet_read (o := ⟨false, false⟩) hn
  have h := hall _ ⟨⟨false, false⟩, 0⟩ as u hrun (by
    rw [hst, List.length_append, length_longGet, List.length_append, length_deleteKey]
    decide)
  obtain ⟨m', hm', hcalls'⟩ := longGet_rejected hn hg
  rw [hst, hm'] at h
  obtain ⟨hc, -⟩ := h
  rw [hc, hcalls'] at hcalls
  cases hcalls

end Kumofs.Gate.TextConn
