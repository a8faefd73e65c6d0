import Kumofs.Gate.ReadEvent
import Kumofs.Lib.Framing
import Kumofs.Lib.Run
import Kumofs.Proofs.Memproto
import Kumofs.Proofs.StreamBuffer

/-!
# The frames of a binary connection

What `read_event` makes of a stream is told frame by frame, without a buffer. A frame that is whole
is dispatched as it is in the stream whatever follows it, and what its callback writes stays inside
of it. So the reads of a connection do not matter, as long as each of them gives bytes: -1 is a
number that is not below 1, and takes a byte away.
-/

namespace Kumofs.Gate

open Memproto Framing

/-! ## The handlers -/

theorem writeBefore_append {mem bytes m r : Bytes} {p : ℕ} (h : writeBefore mem p bytes = some m) :
    writeBefore (mem ++ r) p bytes = some (m ++ r) ∧ m.length = mem.length := by
  unfold writeBefore at h ⊢
  split_ifs at h with hp
  simp only [Option.some.injEq] at h
  subst h
  rw [if_pos (by rw [List.length_append]; omega), List.take_append_of_le_length (by omega),
    List.drop_append_of_le_length (by omega)]
  constructor
  · simp only [List.append_assoc]
  · simp only [List.length_append, List.length_take, List.length_drop]
    omega

namespace BinaryGate

variable {g : BinaryGate} {mem r : Bytes} {c : Call} {t : UInt32}

theorem callback_native {cmd : ℕ} (h : g.callback cmd = true) :
    ¬ (cmd = 0x05 ∨ cmd = 0x06 ∨ cmd = 0x0e ∨ cmd = 0x0f) := by
  cases g with
  | memcacheBinary o =>
    simp only [callback, Memproto.memcacheBinary, decide_eq_true_eq, List.mem_cons,
      List.not_mem_nil, or_false] at h
    omega
  | cloudy =>
    simp only [callback, Memproto.cloudy, decide_eq_true_eq, List.mem_cons, List.not_mem_nil,
      or_false] at h
    omega

theorem bytes_append {x : Region} {b : Bytes} (h : bytes mem x = some b) :
    bytes (mem ++ r) x = some b := read_append h

theorem request_append {q : Binary.Request} (h : request mem c = some q) :
    request (mem ++ r) c = some q := by
  unfold request at h ⊢
  simp only [] at h ⊢
  rcases hc : c.args with k | ⟨k, e⟩ | e | ⟨k, v, flags, e⟩ | ⟨k, a, i, e⟩ | _ | ⟨k, v⟩
  · rw [hc] at h
    obtain ⟨b, hb, rfl⟩ := Option.map_eq_some_iff.1 h
    simp only [bytes_append hb, Option.map_some]
  · rw [hc] at h
    obtain ⟨b, hb, rfl⟩ := Option.map_eq_some_iff.1 h
    simp only [bytes_append hb, Option.map_some]
  · rw [hc] at h
    exact h
  · rw [hc] at h
    simp only [Option.bind_eq_bind, Option.bind_eq_some_iff] at h
    obtain ⟨key, hk, val, hv, h⟩ := h
    simp only [bytes_append hk, bytes_append hv]
    exact h
  · rw [hc] at h
    cases h
  · rw [hc] at h
    exact h
  · rw [hc] at h
    cases h

/-- Whether a handler throws is not a matter of time. -/
theorem rejects_eq (q : Binary.Request) : g.rejects t q = g.rejects 0 q := by
  cases g with
  | cloudy => rfl
  | memcacheBinary o =>
    unfold rejects Binary.handle
    cases q with
    | set h key val flags expiration =>
      simp only []
      split_ifs <;> rfl
    | getx | delete | noop | flush => rfl

theorem length_written (flags expiration : UInt32) : (g.written t flags expiration).length ≤ 6 := by
  cases g with
  | cloudy => exact Nat.zero_le _
  | memcacheBinary o =>
    simp only [written, envelope, toBe16, toBe32]
    split_ifs <;> simp

/-- With what it needs in memory, a handler throws or returns, and does not mind what follows. -/
theorem handler_append {q : Binary.Request} (hq : request mem c = some q)
    (hstart : ∀ x ∈ c.args.regions, headerSize ≤ x.start ∧ x.start ≤ mem.length) :
    g.handler t (mem ++ r) c = .throws ∧ g.handler 0 mem c = .throws ∨
      ∃ m m', g.handler t (mem ++ r) c = .done (m ++ r) ∧ m.length = mem.length ∧
        g.handler 0 mem c = .done m' := by
  unfold handler
  rw [request_append hq, hq]
  simp only []
  rw [rejects_eq]
  split_ifs with hrej
  · exact .inl ⟨rfl, rfl⟩
  · refine .inr ?_
    rcases hc : c.args with k | ⟨k, e⟩ | e | ⟨k, v, flags, e⟩ | ⟨k, a, i, e⟩ | _ | ⟨k, v⟩
    case store =>
      have hv := hstart v (by rw [hc]; simp [Args.regions])
      have hw : ∀ t, ∃ m, writeBefore mem v.start (g.written t flags e) = some m := fun t => by
        have := length_written (g := g) (t := t) flags e
        unfold headerSize at hv
        exact ⟨_, if_pos ⟨by omega, hv.2⟩⟩
      obtain ⟨m, hm⟩ := hw t
      obtain ⟨m', hm'⟩ := hw 0
      obtain ⟨happ, hlen⟩ := writeBefore_append (r := r) hm
      exact ⟨m, m', by simp only [happ], hlen, by simp only [hm']⟩
    all_goals exact ⟨mem, mem, rfl, rfl, rfl⟩

/-! ## The frames of a stream -/

/-- A frame is taken: there is a callback for it, and its handler returns. -/
def serves (g : BinaryGate) (frame : Bytes) : Bool :=
  match dispatch g.callback frame 0 with
  | some (.call c) =>
    match g.handler 0 frame c with
    | .done _ => true
    | _ => false
  | _ => false

/-- What a stream starts with. -/
def cut (g : BinaryGate) (s : Bytes) : Cut :=
  if s.length < headerSize then .more
  else
    let h := Header.parse (s.take headerSize)
    let n := headerSize + h.bodylen.toNat
    if s.length < n then .more
    else if h.magic ≠ Memproto.request then .reject
    else if g.serves (s.take n) then .frame n
    else .last n

/-- The extras and the key of a value that is stored are in the body. -/
def Fits (g : BinaryGate) (frame : Bytes) : Prop :=
  ∀ h, header frame 0 = some h →
    ¬ (g.callback h.opcode.toNat = true ∧ h.Stores ∧ h.Overruns)

theorem stable_cut : Stable g.cut := by
  have htake : ∀ {s b : Bytes} {n : ℕ}, n ≤ s.length → (s ++ b).take n = s.take n :=
    fun hn => List.take_append_of_le_length hn
  refine ⟨fun s b hs => ?_, fun s n hs => ?_, fun s n hs => ?_⟩
  · unfold cut at hs ⊢
    split_ifs at hs with h1
    · exact absurd rfl hs
    · simp only [] at hs ⊢
      rw [if_neg (by rw [List.length_append]; omega), if_neg h1, htake (by omega)]
      by_cases h2 : s.length < headerSize + (Header.parse (s.take headerSize)).bodylen.toNat
      · rw [if_pos h2] at hs
        exact absurd rfl hs
      · rw [if_neg (by rw [List.length_append]; omega), if_neg h2, htake (by omega)]
  · unfold cut at hs
    simp only [] at hs
    split_ifs at hs with h1 h2
    simp only [Cut.last.injEq] at hs
    omega
  · unfold cut at hs
    simp only [] at hs
    split_ifs at hs with h1 h2
    simp only [Cut.frame.injEq] at hs
    unfold headerSize at hs h1 h2
    omega

theorem length_of_more {s : Bytes} (h : g.cut s = .more) : s.length < headerSize + 2 ^ 32 := by
  unfold cut at h
  simp only [] at h
  split_ifs at h with h1 h2
  · exact Nat.lt_add_right _ h1
  · have := (Header.parse (s.take headerSize)).bodylen.toNat_lt
    omega

end BinaryGate

namespace BinaryGate

variable {g : BinaryGate} {mem s : Bytes} {c : Call}

theorem request_some (hfit : ∀ x ∈ c.args.regions, x.start + x.len ≤ mem.length)
    (hn : ¬ c.args.Foreign) : ∃ q, request mem c = some q := by
  have hbytes : ∀ x ∈ c.args.regions, ∃ b, bytes mem x = some b :=
    fun x hx => ⟨_, if_pos (hfit x hx)⟩
  unfold request
  simp only []
  rcases hc : c.args with k | ⟨k, e⟩ | e | ⟨k, v, flags, e⟩ | ⟨k, a, i, e⟩ | _ | ⟨k, v⟩
  · obtain ⟨b, hb⟩ := hbytes k (by simp [hc, Args.regions])
    simp only [hb]
    exact ⟨_, rfl⟩
  · obtain ⟨b, hb⟩ := hbytes k (by simp [hc, Args.regions])
    simp only [hb]
    exact ⟨_, rfl⟩
  · exact ⟨_, rfl⟩
  · obtain ⟨b, hb⟩ := hbytes k (by simp [hc, Args.regions])
    obtain ⟨b', hb'⟩ := hbytes v (by simp [hc, Args.regions])
    simp only [hb, hb']
    exact ⟨_, rfl⟩
  · exact absurd (by rw [hc]; trivial) hn
  · exact ⟨_, rfl⟩
  · exact absurd (by rw [hc]; trivial) hn

/-- What the cut of a frame means. -/
theorem cut_of_frame {n : ℕ} (h : g.cut s = .frame n ∨ g.cut s = .last n) :
    n = headerSize + (Header.parse (s.take headerSize)).bodylen.toNat ∧ n ≤ s.length ∧
      headerSize ≤ s.length ∧ (Header.parse (s.take headerSize)).magic = Memproto.request ∧
      (g.serves (s.take n) = true ↔ g.cut s = .frame n) := by
  unfold cut at h ⊢
  simp only [] at h ⊢
  split_ifs at h ⊢ with h1 h2 h3 h4
  · simp at h
  · simp at h
  · simp at h
  · simp only [Cut.frame.injEq, or_false] at h
    subst h
    exact ⟨rfl, by omega, by omega, not_not.1 h3, by simp [h4]⟩
  · simp only [Cut.last.injEq, false_or] at h
    subst h
    exact ⟨rfl, by omega, by omega, not_not.1 h3, by simp [h4]⟩

end BinaryGate

/-! ## The loop -/

namespace BinaryConn

variable {g : BinaryGate} {t : UInt32} {s : BinaryConn}

/-- A frame that is whole is dispatched as it is by itself, and the data behind it stays. -/
theorem serve_eq {n : ℕ} (hw : s.buffer.Wf)
    (hcut : g.cut s.buffer.data = .frame n ∨ g.cut s.buffer.data = .last n)
    (hfit : g.Fits (s.buffer.data.take n)) :
    ∃ b, b.mem.length = s.buffer.mem.length ∧
      (g.serves (s.buffer.data.take n) = true ∧ b.Wf ∧ b.data = s.buffer.data.drop n ∧
          serve g t s 0 n =
            (⟨b, s.dispatched ++ [s.buffer.data.take n], .running⟩, decide (b.dataSize > 0)) ∨
        g.serves (s.buffer.data.take n) = false ∧
          serve g t s 0 n = (⟨b, s.dispatched ++ [s.buffer.data.take n], .closed⟩, false)) := by
  obtain ⟨hn, hle, hhead, -, -⟩ := BinaryGate.cut_of_frame hcut
  have hsize := hw.length_data
  obtain ⟨frame, hf⟩ : ∃ frame, frame = s.buffer.data.take n := ⟨_, rfl⟩
  have hflen : frame.length = n := by rw [hf, List.length_take]; omega
  have hbehind : s.buffer.behind = frame ++ s.buffer.behind.drop n := by
    have htake : s.buffer.behind.take n = frame := by
      rw [hf, hw.behind_eq, List.take_append_of_le_length hle]
    rw [← htake, List.take_append_drop]
  have hheader : header frame 0 =
      some (Header.parse (s.buffer.data.take headerSize)) := by
    rw [header_zero (by omega), hf, List.take_take, min_eq_left (by omega)]
  have hsafe := @dispatch_safe _ _ _ g.callback hheader (by omega)
    fun hcb hst hov => hfit _ (hf ▸ hheader) ⟨hcb, hst, hov⟩
  rw [← hf]
  unfold serve
  simp only []
  rw [show s.buffer.behind.take n = frame by rw [hbehind, List.take_left' hflen]]
  rcases hd : dispatch g.callback frame 0 with _ | ret | c
  · rw [hd] at hsafe
    exact absurd hsafe id
  · refine ⟨s.buffer.dataUsed n, rfl, .inr ⟨by simp [BinaryGate.serves, hd], ?_⟩⟩
    rw [hbehind, dispatch_append hd]
  · obtain ⟨hstart, hnative⟩ := dispatch_call hd
    rw [hd] at hsafe
    obtain ⟨-, -, hregions⟩ := hsafe
    have hin : ∀ x ∈ c.args.regions, x.start + x.len ≤ frame.length := fun x hx => by
      have := (hregions x (List.mem_cons_of_mem _ hx)).2
      omega
    obtain ⟨q, hq⟩ := BinaryGate.request_some hin fun hforeign => by
      obtain ⟨cmd, hcb, hcmd⟩ := hnative hforeign
      exact BinaryGate.callback_native hcb hcmd
    have hplaces : ∀ x ∈ c.args.regions, headerSize ≤ x.start ∧ x.start ≤ frame.length :=
      fun x hx => by
        have := hstart x hx
        have := hin x hx
        omega
    rw [hbehind, dispatch_append hd]
    simp only []
    rcases BinaryGate.handler_append (g := g) (t := t) (r := s.buffer.behind.drop n) hq hplaces
      with ⟨hthrow, hthrow'⟩ | ⟨m, m', hdone, hmlen, hdone'⟩
    · refine ⟨s.buffer.dataUsed n, rfl, .inr ⟨by simp [BinaryGate.serves, hd, hthrow'], ?_⟩⟩
      rw [hthrow]
    · rw [hdone]
      obtain ⟨hbw, hbd, hbm⟩ :=
        StreamBuffer.overwrite_wf hw (by omega) (hmlen.trans hflen) _ rfl
      exact ⟨_, hbm, .inl ⟨by simp [BinaryGate.serves, hd, hdone'], hbw, hbd, rfl⟩⟩

/-- What the parser finds in the buffer is what the data starts with. -/
theorem execute_behind {b : StreamBuffer} (hw : b.Wf) :
    execute b.behind b.dataSize 0 = some (match g.cut b.data with
      | .more => .more
      | .reject => .error
      | .last n => .frame 0 n
      | .frame n => .frame 0 n) := by
  have hlen := hw.length_data
  have hlt := dataSize_lt b
  rw [hw.behind_eq, ← hlen, execute_data (by omega)]
  unfold BinaryGate.cut
  simp only []
  split_ifs <;> rfl

theorem round_more (hw : s.buffer.Wf) (h : g.cut s.buffer.data = .more) :
    round g t s = (s, false) := by
  rw [round, execute_behind hw, h]

theorem round_reject (hw : s.buffer.Wf) (h : g.cut s.buffer.data = .reject) :
    round g t s = ({ s with status := .closed }, false) := by
  rw [round, execute_behind hw, h]

theorem round_last {n : ℕ} (hw : s.buffer.Wf) (h : g.cut s.buffer.data = .last n) :
    round g t s = serve g t s 0 n := by
  rw [round, execute_behind hw, h]

theorem round_frame {n : ℕ} (hw : s.buffer.Wf) (h : g.cut s.buffer.data = .frame n) :
    round g t s = serve g t s 0 n := by
  rw [round, execute_behind hw, h]

theorem loop_of_false (h : (round g t s).2 = false) : loop g t s = (round g t s).1 := by
  rw [loop, dif_neg (by simp [h])]

theorem loop_of_true (h : (round g t s).2 = true) :
    loop g t s = loop g t (round g t s).1 := by
  rw [loop, dif_pos h]

/-- The loop dispatches the frames of the data, and leaves what is left of them. -/
theorem loop_eq : ∀ (d : Bytes) (s : BinaryConn), s.buffer.Wf → s.buffer.data = d →
    s.status = .running → (∀ f ∈ (parse g.cut d).frames, g.Fits f) →
      ∃ b, b.mem.length = s.buffer.mem.length ∧
        loop g t s = ⟨b, s.dispatched ++ (parse g.cut d).frames,
          if (parse g.cut d).rest.isSome then .running else .closed⟩ ∧
        ∀ r, (parse g.cut d).rest = some r → b.Wf ∧ b.data = r := by
  intro d
  induction d using parse.induct g.cut with
  | case1 d hm =>
    rintro ⟨b, dispatched, status⟩ hw rfl rfl -
    have hround : round g t ⟨b, dispatched, .running⟩ = (⟨b, dispatched, .running⟩, false) :=
      round_more hw hm
    refine ⟨b, rfl, ?_, ?_⟩
    · rw [loop_of_false (by rw [hround]), hround, parse_of_more hm, List.append_nil]
      rfl
    · rw [parse_of_more hm]
      rintro r hr
      cases hr
      exact ⟨hw, rfl⟩
  | case2 d hm =>
    rintro ⟨b, dispatched, status⟩ hw rfl rfl -
    have hround : round g t ⟨b, dispatched, .running⟩ = (⟨b, dispatched, .closed⟩, false) :=
      round_reject hw hm
    have hparse : parse g.cut b.data = ⟨[], none⟩ := by rw [parse, hm]
    refine ⟨b, rfl, ?_, ?_⟩
    · rw [loop_of_false (by rw [hround]), hround, hparse, List.append_nil]
      rfl
    · rw [hparse]
      simp
  | case3 d n hm =>
    rintro ⟨b, dispatched, status⟩ hw rfl rfl hfit
    have hparse : parse g.cut b.data = ⟨[b.data.take n], none⟩ := by rw [parse, hm]
    have hnot : ¬ g.serves (b.data.take n) = true := by
      rw [(BinaryGate.cut_of_frame (.inr hm)).2.2.2.2, hm]
      simp
    obtain ⟨b', hmem, ⟨hserves, -⟩ | ⟨-, hserve⟩⟩ := serve_eq (t := t)
      (s := ⟨b, dispatched, .running⟩) hw (.inr hm) (hfit _ (by rw [hparse]; simp))
    · exact absurd hserves hnot
    · have hround := (round_last (t := t) (s := ⟨b, dispatched, .running⟩) hw hm).trans hserve
      refine ⟨b', hmem, ?_, ?_⟩
      · rw [loop_of_false (by rw [hround]), hround, hparse]
        rfl
      · rw [hparse]
        simp
  | case4 d n hm hn ih =>
    rintro ⟨b, dispatched, status⟩ hw rfl rfl hfit
    have hparse := parse_frame BinaryGate.stable_cut hm
    rw [hparse] at hfit ⊢
    have hserves : g.serves (b.data.take n) = true := by
      rw [(BinaryGate.cut_of_frame (.inl hm)).2.2.2.2, hm]
    obtain ⟨b', hmem, ⟨-, hbw, hbd, hserve⟩ | ⟨hnot, -⟩⟩ := serve_eq (t := t)
      (s := ⟨b, dispatched, .running⟩) hw (.inl hm) (hfit _ (by simp [Parsed.after]))
    · have hround := (round_frame (t := t) (s := ⟨b, dispatched, .running⟩) hw hm).trans hserve
      by_cases hmore : b'.dataSize > 0
      · obtain ⟨b'', hmem', hloop, hrest⟩ := ih ⟨b', dispatched ++ [b.data.take n], .running⟩ hbw
          hbd rfl fun f hf => hfit f (List.mem_append_right _ hf)
        refine ⟨b'', hmem'.trans hmem, ?_, hrest⟩
        rw [loop_of_true (by rw [hround]; exact decide_eq_true hmore), hround, hloop,
          List.append_assoc]
        rfl
      · have hnil : b.data.drop n = [] := by
          rw [← hbd, ← List.length_eq_zero_iff, hbw.length_data]
          omega
        rw [hnil, parse_of_more (show g.cut [] = .more from rfl)]
        refine ⟨b', hmem, ?_, ?_⟩
        · rw [loop_of_false (by rw [hround]; exact decide_eq_false hmore), hround]
          rfl
        · rintro r hr
          cases hr
          exact ⟨hbw, hbd.trans hnil⟩
    · exact absurd hserves (by simp [hnot])
  | case5 d n hm hn => exact absurd (BinaryGate.stable_cut.frame d n hm) hn

/-! ## The reads of a connection -/

/-- What an action reads of the stream. -/
def Act.bytes : Act → Bytes
  | .readEvent _ (.bytes b) => b
  | _ => []

/-- The stream that was read. -/
def stream (as : List Act) : Bytes := as.flatMap Act.bytes

/-- The read of an action gives some bytes or the end of the stream. -/
def NoFailedRead (_ : BinaryConn) (a : Act) : Prop := ∀ t errno, a ≠ .readEvent t (.failed errno)

/-- The connection has dispatched the frames of the stream, and what is left of it is the data. -/
structure Follows (g : BinaryGate) (as : List Act) (s : BinaryConn) : Prop where
  dispatched : s.dispatched = (parse g.cut (stream as)).frames
  defined : s.status ≠ .undefined
  running : s.status = .running → s.buffer.Wf ∧ s.buffer.mem.length ≤ 2 ^ 34 ∧
    (parse g.cut (stream as)).rest = some s.buffer.data
  closed : s.status = .closed →
    (parse g.cut (stream as)).rest = none ∨ ∃ t, .readEvent t .eof ∈ as

variable {as pre : List Act} {a : Act} {u : BinaryConn}

theorem stream_snoc : stream (pre ++ [a]) = stream pre ++ a.bytes := by
  simp [stream]

theorem follows_start : Follows g [] start := by
  have hnil : parse g.cut (stream []) = ⟨[], some []⟩ := parse_of_more rfl
  refine ⟨by rw [hnil]; rfl, by decide, fun _ => ⟨?_, ?_, ?_⟩, fun h => ?_⟩
  · exact StreamBuffer.init_wf (by decide)
  · rw [start, StreamBuffer.init, StreamBuffer.malloc, List.length_replicate]
    decide
  · rw [hnil, start, StreamBuffer.data_init]
  · cases h

/-- There is room, and the data is as it was. -/
theorem reserveBuffer_follows (h : Follows g pre s) (hr : s.status = .running) :
    ∃ b, s.buffer.reserveBuffer binaryReserveSize initialBufferSize = some b ∧ b.Wf ∧
      b.data = s.buffer.data ∧ binaryReserveSize ≤ b.free ∧ b.mem.length ≤ 2 ^ 34 := by
  obtain ⟨hw, hm, hrest⟩ := h.running hr
  have hmore := BinaryGate.length_of_more (cut_rest BinaryGate.stable_cut _ hrest)
  rw [hw.length_data] at hmore
  have hL : s.buffer.dataSize + binaryReserveSize + initialBufferSize + countSize ≤ 2 ^ 33 := by
    unfold headerSize at hmore
    unfold binaryReserveSize initialBufferSize countSize
    omega
  exact StreamBuffer.reserveBuffer_some hw hL (by decide) (by decide) hm

theorem follows_step (h : Follows g pre s)
    (hfit : ∀ f ∈ (parse g.cut (stream (pre ++ [a]))).frames, g.Fits f) (hp : NoFailedRead s a)
    (hstep : step g s a = some u) : Follows g (pre ++ [a]) u := by
  cases a with
  | answered n =>
    unfold step at hstep
    simp only [] at hstep
    split_ifs at hstep with hn
    cases hstep
    have hstream : stream (pre ++ [.answered n]) = stream pre := by
      simp [stream_snoc, Act.bytes]
    refine ⟨by rw [hstream]; exact h.dispatched, h.defined, fun hr => ?_, fun hc => ?_⟩
    · obtain ⟨hw, hm, hrest⟩ := h.running hr
      exact ⟨StreamBuffer.decrCount_wf hw hn, hm, by rw [hstream]; exact hrest⟩
    · rw [hstream]
      exact (h.closed hc).imp_right fun ⟨t, ht⟩ => ⟨t, List.mem_append_left _ ht⟩
  | readEvent t r =>
    unfold step at hstep
    simp only [] at hstep
    split_ifs at hstep with hr
    have hr := not_not.1 hr
    obtain ⟨hw, hm, hrest⟩ := h.running hr
    obtain ⟨b, hb, hbw, hbd, -, hbm⟩ := reserveBuffer_follows h hr
    simp only [hb] at hstep
    split_ifs at hstep with hposs
    simp only [Option.some.injEq] at hstep
    subst hstep
    cases r with
    | failed errno => exact absurd rfl (hp t errno)
    | eof =>
      have hstream : stream (pre ++ [.readEvent t .eof]) = stream pre := by
        simp [stream_snoc, Act.bytes]
      refine ⟨by rw [hstream]; exact h.dispatched, ?_, ?_, fun _ => .inr ⟨t, by simp⟩⟩
      · simp [received, rl]
      · simp [received, rl]
    | bytes bytes =>
      have hlen : rl (.bytes bytes) ≠ 0 := fun h0 => hposs.1 (List.length_eq_zero_iff.1 h0)
      obtain ⟨hcw, hcd, hcm⟩ := StreamBuffer.consumed_wf hbw hposs.2
      have hparse : parse g.cut (stream (pre ++ [.readEvent t (.bytes bytes)])) =
          (parse g.cut (s.buffer.data ++ bytes)).after s.dispatched := by
        rw [stream_snoc, Act.bytes, parse_append BinaryGate.stable_cut, Parsed.feed, hrest,
          h.dispatched]
      rw [hparse] at hfit
      obtain ⟨b', hbm', hloop, hleft⟩ := loop_eq (g := g) (t := t) (s.buffer.data ++ bytes)
        ⟨(b.put bytes).bufferConsumed bytes.length, s.dispatched, .running⟩ hcw
        (by rw [hcd, hbd]) rfl fun f hf => hfit f (List.mem_append_right _ hf)
      have hu : received g t { s with buffer := fill b (.bytes bytes) } (.bytes bytes) =
          ⟨b', s.dispatched ++ (parse g.cut (s.buffer.data ++ bytes)).frames,
            if (parse g.cut (s.buffer.data ++ bytes)).rest.isSome then .running else .closed⟩ := by
        rw [received, if_neg hlen, ← hloop]
        simp only [fill, rl, hr]
      rw [hu]
      refine ⟨?_, ?_, ?_, ?_⟩
      · simp only [hparse]
        rfl
      · simp only []
        split_ifs <;> simp
      · simp only []
        intro hrun
        obtain ⟨left, hl⟩ : ∃ left, (parse g.cut (s.buffer.data ++ bytes)).rest = some left := by
          rw [← Option.isSome_iff_exists]
          by_contra hn
          simp [hn] at hrun
        obtain ⟨hlw, hld⟩ := hleft left hl
        refine ⟨hlw, by rw [hbm', hcm]; exact hbm, ?_⟩
        rw [hparse, hld]
        exact hl
      · simp only []
        intro hclosed
        rw [hparse]
        refine .inl ?_
        simp only [Parsed.after]
        by_contra hn
        rw [← Ne, Option.ne_none_iff_isSome] at hn
        simp [hn] at hclosed

/-- A read that fails takes a byte of the data away, or makes almost 2 ^ 64 of none. -/
theorem dataSize_failed {b : StreamBuffer} (h : b.Wf) (errno : ℕ) :
    (b.bufferConsumed (rl (.failed errno))).dataSize =
      if b.dataSize = 0 then 2 ^ 64 - 1 else b.dataSize - 1 := by
  have hoff := h.off_le
  have hc := h.le_off
  have hlen := h.length_mem
  have hb := h.bounded
  have hpos : 0 < b.used := by unfold countSize at hc; omega
  have hd := h.dataSize_eq
  have hused : sizeAdd b.used (2 ^ 64 - 1) = b.used - 1 := by
    unfold sizeAdd
    omega
  have hsize : (b.bufferConsumed (rl (.failed errno))).dataSize = sizeSub (b.used - 1) b.off := by
    simp only [StreamBuffer.dataSize, StreamBuffer.bufferConsumed, rl, hused]
  rw [hsize, hd]
  split_ifs with h0
  · have hsub : b.used - 1 + 1 = b.off := by omega
    unfold sizeSub
    rw [← hsub]
    omega
  · rw [sizeSub_eq (by omega) (by omega)]
    omega

theorem frames_prefix (x y : Bytes) :
    ∀ f ∈ (parse g.cut x).frames, f ∈ (parse g.cut (x ++ y)).frames := by
  intro f hf
  rw [parse_append BinaryGate.stable_cut]
  unfold Parsed.feed
  split
  · exact hf
  · exact List.mem_append_left _ hf

theorem follows_run (h : Machine.Run (step g) NoFailedRead s as u) :
    ∀ pre, Follows g pre s → (∀ f ∈ (parse g.cut (stream (pre ++ as))).frames, g.Fits f) →
      Follows g (pre ++ as) u := by
  induction h with
  | nil s =>
    intro pre hs _
    rw [List.append_nil]
    exact hs
  | @cons s v u a as hp hst _ ih =>
    intro pre hs hfit
    have happ : pre ++ a :: as = (pre ++ [a]) ++ as := by simp
    rw [happ] at hfit ⊢
    refine ih _ (follows_step hs (fun f hf => hfit f ?_) hp hst) hfit
    rw [stream, List.flatMap_append]
    exact frames_prefix _ _ f hf

/-- However the stream comes, the frames that are dispatched are those of the stream, and those that
one loop over the whole of it dispatches; it ends where that loop does, or at the end of the
stream. -/
theorem dispatched_eq_parse (h : Machine.Run (step g) NoFailedRead start as u)
    (hfit : ∀ f ∈ (parse g.cut (stream as)).frames, g.Fits f) :
    Follows g as u ∧ ∀ t whole, whole.buffer.Wf → whole.buffer.data = stream as →
      whole.dispatched = [] → whole.status = .running →
        (loop g t whole).dispatched = u.dispatched ∧
          ((loop g t whole).status = .closed → u.status = .closed) ∧
          (u.status = .closed →
            (loop g t whole).status = .closed ∨ ∃ t', .readEvent t' .eof ∈ as) := by
  have hfollows : Follows g as u := follows_run h [] follows_start hfit
  refine ⟨hfollows, fun t whole hw hd hnil hr => ?_⟩
  obtain ⟨b, -, hloop, -⟩ := loop_eq (t := t) (stream as) whole hw hd hr hfit
  rw [hloop, hnil, List.nil_append, hfollows.dispatched]
  refine ⟨rfl, fun hclosed => ?_, fun hclosed => ?_⟩
  · cases hu : u.status with
    | closed => rfl
    | undefined => exact absurd hu hfollows.defined
    | running =>
      rw [(hfollows.running hu).2.2] at hclosed
      cases hclosed
  · refine (hfollows.closed hclosed).imp_left fun hrest => ?_
    rw [hrest]
    rfl

/-! A frame that is answered, and a read that finds nothing: the frame is dispatched again. -/

section Sample

variable (m : Bytes) (d : List Bytes) (count used free : ℕ)

def gate : BinaryGate := .memcacheBinary ⟨true, true⟩

/-- A `NOOP`. -/
def noop : Bytes := [0x80, 0x0a, 0, 0, 0, 0, 0, 0, 0, 0, 0, 0, 0, 0, 0, 0, 0, 0, 0, 0, 0, 0, 0, 0]

/-- A buffer with that frame at the beginning of its block. -/
def noopAt (off : ℕ) : StreamBuffer := ⟨[0, 0, 0, 0] ++ (noop ++ m), count, used, free, off⟩

def noopHeader : Header := ⟨0x80, 0x0a, 0, 0, 0, 0, 0, 0, 0⟩

theorem header_noop : header (noop ++ m) 0 = some noopHeader :=
  header_append (show header noop 0 = some noopHeader by decide)

theorem serve_noop : serve gate 0 ⟨noopAt m count used free 4, d, .running⟩ 0 24 =
    (⟨noopAt m (count + 1) used free 28, d ++ [noop], .running⟩,
      decide ((noopAt m (count + 1) used free 28).dataSize > 0)) := by
  have hd : dispatch gate.callback (noop ++ m) 0 =
      some (.call ⟨0x0a, noopHeader, ⟨24, 0⟩, .plain⟩) :=
    dispatch_append (show dispatch gate.callback noop 0 =
      some (.call ⟨0x0a, noopHeader, ⟨24, 0⟩, .plain⟩) by decide)
  have hbehind : (noopAt m count used free 4).behind = noop ++ m := rfl
  unfold serve
  simp only [hbehind, hd]
  rfl

theorem execute_noop {size : ℕ} (h : 24 ≤ size) (hs : size < 2 ^ 64) :
    execute (noop ++ m) size 0 = some (.frame 0 24) := by
  have hsub : sizeSub size 0 = size := sizeSub_eq (Nat.zero_le _) hs
  unfold execute
  simp only [hsub]
  rw [if_neg (by unfold headerSize; omega), header_noop, Option.bind_eq_bind, Option.bind_some,
    if_neg (by simp [noopHeader])]
  rfl

theorem execute_zeros {size : ℕ} (h : 24 ≤ size) (hs : size < 2 ^ 64) :
    execute (List.replicate 24 0 ++ m) size 0 = some .error := by
  have hsub : sizeSub size 0 = size := sizeSub_eq (Nat.zero_le _) hs
  have hh : header (List.replicate 24 0 ++ m) 0 = some ⟨0, 0, 0, 0, 0, 0, 0, 0, 0⟩ :=
    header_append (show header (List.replicate 24 0) 0 = _ by decide)
  unfold execute
  simp only [hsub]
  rw [if_neg (by unfold headerSize; omega), hh, Option.bind_eq_bind, Option.bind_some,
    if_neg (by simp)]
  rfl

theorem round_noop {size : ℕ} (hd : (noopAt m count used free 4).dataSize = size) (h : 24 ≤ size)
    (hs : size < 2 ^ 64) : round gate 0 ⟨noopAt m count used free 4, d, .running⟩ =
      (⟨noopAt m (count + 1) used free 28, d ++ [noop], .running⟩,
        decide ((noopAt m (count + 1) used free 28).dataSize > 0)) := by
  have hbehind : (noopAt m count used free 4).behind = noop ++ m := rfl
  unfold round
  simp only [hbehind, hd, execute_noop m h hs, serve_noop]

theorem round_zeros {size : ℕ}
    (hd : (noopAt (List.replicate 24 0 ++ m) count used free 28).dataSize = size) (h : 24 ≤ size)
    (hs : size < 2 ^ 64) :
    round gate 0 ⟨noopAt (List.replicate 24 0 ++ m) count used free 28, d, .running⟩ =
      (⟨noopAt (List.replicate 24 0 ++ m) count used free 28, d, .closed⟩, false) := by
  have hbehind : (noopAt (List.replicate 24 0 ++ m) count used free 28).behind =
      List.replicate 24 0 ++ m := rfl
  unfold round
  simp only [hbehind, hd, execute_zeros m h hs]

/-- The buffer of a new connection. -/
theorem init_eq : StreamBuffer.init initialAllocationSize =
    ⟨StreamBuffer.malloc 32768, 1, 4, 32764, 4⟩ := rfl

theorem reserve_init : (StreamBuffer.init initialAllocationSize).reserveBuffer binaryReserveSize
    initialBufferSize = some ⟨StreamBuffer.malloc 32768, 1, 4, 32764, 4⟩ := by
  rw [init_eq, StreamBuffer.reserveBuffer]
  rfl

theorem loop_noop : loop gate 0 ⟨noopAt m 1 28 32740 4, [], .running⟩ =
    ⟨noopAt m 2 28 32740 28, [noop], .running⟩ := by
  have hsize : (noopAt m 1 28 32740 4).dataSize = 24 := (by decide : sizeSub 28 4 = 24)
  have hround := round_noop m [] 1 28 32740 hsize (by decide) (by decide)
  have hdone : (noopAt m 2 28 32740 28).dataSize = 0 := (by decide : sizeSub 28 28 = 0)
  rw [loop_of_false (by rw [hround, hdone]; rfl), hround]
  rfl

theorem step_noop : step gate start (.readEvent 0 (.bytes noop)) =
    some ⟨noopAt (StreamBuffer.malloc 32740) 2 28 32740 28, [noop], .running⟩ := by
  have hmem : ((⟨StreamBuffer.malloc 32768, 1, 4, 32764, 4⟩ : StreamBuffer).put noop).bufferConsumed
      24 = noopAt (StreamBuffer.malloc 32740) 1 28 32740 4 := by
    unfold StreamBuffer.put StreamBuffer.bufferConsumed noopAt StreamBuffer.malloc
    simp only [List.take_replicate, List.drop_replicate]
    rfl
  unfold step start
  simp only [ne_eq, not_true_eq_false, if_false, reserve_init]
  rw [if_pos (show Possible ⟨_, _, _, 32764, _⟩ (.bytes noop) from (by decide :
    noop ≠ [] ∧ noop.length ≤ 32764)), received, if_neg (by decide)]
  simp only [fill]
  rw [show rl (.bytes noop) = 24 from rfl, hmem, loop_noop]

theorem step_answered : step gate ⟨noopAt m 2 28 32740 28, d, .running⟩ (.answered 1) =
    some ⟨noopAt m 1 28 32740 28, d, .running⟩ := rfl

theorem step_again : ∃ b, step gate
    ⟨noopAt (StreamBuffer.malloc 32740) 1 28 32740 28, [noop], .running⟩
    (.readEvent 0 (.failed 11)) = some ⟨b, [noop, noop], .closed⟩ := by
  have hmem : StreamBuffer.malloc 32740 = List.replicate 24 0 ++ StreamBuffer.malloc 32716 := by
    unfold StreamBuffer.malloc
    rw [← List.replicate_add]
  have hres : ∀ m, (noopAt m 1 28 32740 28).reserveBuffer binaryReserveSize initialBufferSize =
      some (noopAt m 1 4 32764 4) := fun m => by
    have hfree : sizeAdd 32740 (sizeSub 28 countSize) = 32764 := by decide
    have hrewind : (noopAt m 1 28 32740 28).rewind = noopAt m 1 4 32764 4 := by
      unfold StreamBuffer.rewind noopAt
      rw [if_pos ⟨rfl, rfl⟩, hfree]
      rfl
    rw [StreamBuffer.reserveBuffer, hrewind]
    rfl
  have hfail : ∀ m, (noopAt m 1 4 32764 4).bufferConsumed (2 ^ 64 - 1) = noopAt m 1 3 32765 4 :=
    fun m => by
      have hused : sizeAdd 4 (2 ^ 64 - 1) = 3 := by decide
      have hfree : sizeSub 32764 (2 ^ 64 - 1) = 32765 := by decide
      unfold StreamBuffer.bufferConsumed noopAt
      rw [hused, hfree]
  rw [hmem]
  obtain ⟨m, hm⟩ : ∃ m, StreamBuffer.malloc 32716 = m := ⟨_, rfl⟩
  rw [hm]
  have hsize : (noopAt (List.replicate 24 0 ++ m) 1 3 32765 4).dataSize = 2 ^ 64 - 1 :=
    (by decide : sizeSub 3 4 = 2 ^ 64 - 1)
  have hmore : (noopAt (List.replicate 24 0 ++ m) 2 3 32765 28).dataSize = 2 ^ 64 - 25 :=
    (by decide : sizeSub 3 28 = 2 ^ 64 - 25)
  have hstale : round gate 0 ⟨noopAt (List.replicate 24 0 ++ m) 1 3 32765 4, [noop], .running⟩ =
      (⟨noopAt (List.replicate 24 0 ++ m) 2 3 32765 28, [noop, noop], .running⟩, true) := by
    rw [round_noop _ _ _ _ _ hsize (by decide) (by decide), hmore]
    rfl
  have hzeros := round_zeros m [noop, noop] 2 3 32765 hmore (by decide) (by decide)
  refine ⟨noopAt (List.replicate 24 0 ++ m) 2 3 32765 28, ?_⟩
  unfold step
  simp only [ne_eq, not_true_eq_false, if_false, hres]
  rw [if_pos (show Possible _ (.failed 11) from trivial), received, if_neg (by decide)]
  simp only [fill]
  rw [show rl (.failed 11) = 2 ^ 64 - 1 from rfl, hfail, loop_of_true (by rw [hstale]), hstale,
    loop_of_false (by rw [hzeros]), hzeros]

theorem parse_noop : parse gate.cut noop = ⟨[noop], some []⟩ := by
  rw [parse_frame BinaryGate.stable_cut (n := 24) (by decide), parse_of_more (by decide)]
  rfl

theorem noop_fits : gate.Fits noop := by
  rintro h hh ⟨-, ⟨-, hk⟩, -⟩
  have h0 : header noop 0 = some noopHeader := by decide
  rw [h0, Option.some.injEq] at hh
  exact hk (by rw [← hh]; rfl)

theorem not_dispatched_eq_parse : ¬ ∀ (g : BinaryGate) (as : List Act) (u : BinaryConn),
    Machine.Run (step g) Machine.Free start as u →
      (∀ f ∈ (parse g.cut (stream as)).frames, g.Fits f) →
        u.dispatched = (parse g.cut (stream as)).frames := by
  intro hall
  obtain ⟨b, hb⟩ := step_again
  have hrun : Machine.Run (step gate) Machine.Free start
      [.readEvent 0 (.bytes noop), .answered 1, .readEvent 0 (.failed 11)]
      ⟨b, [noop, noop], .closed⟩ :=
    .cons trivial step_noop (.cons trivial (step_answered _ _) (.cons trivial hb (.nil _)))
  have hstream : stream [.readEvent 0 (.bytes noop), .answered 1, .readEvent 0 (.failed 11)] =
      noop := by
    simp [stream, Act.bytes]
  have h := hall gate _ _ hrun (by
    rw [hstream, parse_noop]
    simpa using noop_fits)
  rw [hstream, parse_noop] at h
  simp at h

theorem dispatched_eq_parse_noop :
    Follows gate [.readEvent 0 (.bytes noop)]
        ⟨noopAt (StreamBuffer.malloc 32740) 2 28 32740 28, [noop], .running⟩ ∧
      ∀ t whole, whole.buffer.Wf → whole.buffer.data = stream [.readEvent 0 (.bytes noop)] →
        whole.dispatched = [] → whole.status = .running →
          (loop gate t whole).dispatched = [noop] ∧
            ((loop gate t whole).status = .closed → Status.running = .closed) ∧
            (Status.running = .closed → (loop gate t whole).status = .closed ∨
              ∃ t', Act.readEvent t' .eof ∈ [.readEvent 0 (.bytes noop)]) := by
  refine dispatched_eq_parse (.cons (fun _ _ => by simp) step_noop (.nil _)) ?_
  rw [show stream [.readEvent 0 (.bytes noop)] = noop from rfl, parse_noop]
  simpa using noop_fits

end Sample

end BinaryConn

end Kumofs.Gate
