import Kumofs.Sample
import Kumofs.Server.Stream
import Mathlib.Logic.Function.Iterate

/-!
# The replace stream arrives

The receiver gets what was sent, however the bytes are cut into reads: the unpacker always has room,
and the end of the stream is only consumed when all of it has been unpacked. The sender takes every
return of `deflate` for an error that is not `Z_OK` or the end of the stream. So it succeeds if and
only if `deflate` is never called without room or without anything to do.
-/

namespace Kumofs.Server

open Codec

variable {σ τ : Type*} {Z : Zlib UInt8 σ τ} {P : Msgpack} {records : List Record}

/-- `reserve_buffer` makes room, and the buffer of a receiver is less than 4 GiB. -/
def Msgpack.Reserves (P : Msgpack) : Prop := ∀ n, 16 * 1024 ≤ P.capacity n ∧ P.capacity n < 2 ^ 32

/-- What is promised of the serializer, for these messages. -/
structure Msgpack.Inverse (P : Msgpack) (msgs : List Msg) : Prop where
  execute_pack : ∀ m ∈ msgs, ∀ rest, P.execute (P.pack m ++ rest) = some (m, rest)
  execute_prefix : ∀ m ∈ msgs, ∀ p, p <+: P.pack m → p ≠ P.pack m → P.execute p = none
  /-- A header has one to five bytes. -/
  packArray_ne : P.packArray 2 ≠ []
  packNil_ne : P.packNil ≠ []
  header_le : (P.packArray 2).length ≤ 5 ∧ (∀ n, (P.packRaw n).length ≤ 5) ∧ P.packNil.length ≤ 5
  room : P.Reserves

/-- The stream of these records is sent, and received however it is cut. -/
def RoundTrip (Z : Zlib UInt8 σ τ) (P : Msgpack) (records : List Record) : Prop :=
  ∃ bytes, (∃ n, (Sender.step Z)^[n] (.start Z P records) = .sent bytes) ∧
    ∀ reads : List Read, (∀ r ∈ reads, r.Nonempty) → readBytes reads = bytes →
      ∃ rounds c, Zconnection.receive Z P rounds (.init Z) reads = some (.ok c) ∧
        c.submitted = messages records

/-! ## Sending -/

namespace ZmmapStream

variable {s : ZmmapStream σ} {req : ℕ}

@[simp] theorem expandMap_z : (s.expandMap req).z = s.z := rfl

@[simp] theorem expandMap_out : (s.expandMap req).out = s.out := rfl

@[simp] theorem reserve_z : s.reserve.z = s.z := by
  unfold reserve
  split_ifs <;> rfl

@[simp] theorem reserve_out : s.reserve.out = s.out := by
  unfold reserve
  split_ifs <;> rfl

theorem room_pos (h : s.availOut ≠ 0) : 0 < s.availOut.toNat :=
  Nat.pos_of_ne_zero fun h0 => h (UInt32.toNat_inj.1 h0)

end ZmmapStream

namespace Sender

/-- What a sender of the data `d` has done and is still to do. -/
def Sound (Z : Zlib UInt8 σ τ) (d : Bytes) : Sender σ → Prop
  | .writing s input next =>
    (∀ buf ∈ next, buf.length < 2 ^ 32) ∧
      ∃ i, Deflated Z .noFlush s.z i s.out ∧ i ++ input ++ next.flatten = d
  | .flushing s => ∃ f, Deflated Z f s.z d s.out
  | .sent bytes => Complete Z bytes d
  | .failed _ => True

/-- What is left to do where there is never more output than `m`. -/
def left (m : ℕ) : Sender σ → ℕ
  | .writing s input next =>
    (m - s.out.length) + input.length + next.flatten.length + next.length + 1
  | .flushing s => m - s.out.length
  | .sent _ | .failed _ => 0

def Failed : Sender σ → Prop
  | .failed _ => True
  | _ => False

def Sent : Sender σ → Prop
  | .sent _ => True
  | _ => False

variable {d : Bytes} {x : Sender σ} {m : ℕ}

theorem Sent.exists (h : x.Sent) : ∃ bytes, x = .sent bytes := by
  cases x with
  | sent bytes => exact ⟨bytes, rfl⟩
  | _ => exact h.elim

theorem availIn_eq {buf : Bytes} (h : buf.length < 2 ^ 32) : availIn buf = buf := by
  rw [availIn, Nat.mod_eq_of_lt h, List.take_length]

theorem sound_write {s : ZmmapStream σ} {i : Bytes} (hz : Deflated Z .noFlush s.z i s.out) :
    ∀ {next : List Bytes}, (∀ buf ∈ next, buf.length < 2 ^ 32) → i ++ next.flatten = d →
      Sound Z d (write s next)
  | [], _, hd => by
    rw [List.flatten_nil, List.append_nil] at hd
    exact ⟨_, hd ▸ hz⟩
  | buf :: next, hlt, hd => by
    refine ⟨fun b hb => hlt b (List.mem_cons_of_mem _ hb), i, hz, ?_⟩
    rw [availIn_eq (hlt buf List.mem_cons_self), ← hd, List.flatten_cons, List.append_assoc]

theorem left_write {s : ZmmapStream σ} : ∀ {next : List Bytes},
    (∀ buf ∈ next, buf.length < 2 ^ 32) → (write s next).left m ≤
      (m - s.out.length) + next.flatten.length + next.length
  | [], _ => by simp [write, left]
  | buf :: next, hlt => by
    simp only [write, left, availIn_eq (hlt buf List.mem_cons_self), List.flatten_cons,
      List.length_append, List.length_cons]
    omega

theorem not_failed_write {s : ZmmapStream σ} {next : List Bytes} : ¬ (write s next).Failed := by
  cases next <;> exact not_false

/-- A call without room or without anything to do is an error. -/
theorem failed_step (hZ : Documented Z) (hx : x.Sound Z d) (hc : ¬ x.Callable Z) :
    (x.step Z).Failed := by
  cases x with
  | writing s input next =>
    obtain ⟨-, i, hz, -⟩ := hx
    have hz' : Deflated Z .noFlush s.reserve.z i s.out := by simpa using hz
    have hret :
        (Z.deflate .noFlush s.reserve.z input s.reserve.availOut.toNat).ret = .bufError := by
      by_cases hroom : s.reserve.availOut = 0
      · rw [hroom]
        exact (hZ.noRoom _ _ _ _ _ hz').1
      · have hno : ¬ (input ≠ [] ∨ Z.pending s.z = true) := fun h => hc ⟨hroom, h⟩
        simp only [not_or, not_not, Bool.not_eq_true] at hno
        rw [hno.1]
        exact hZ.noProgress _ _ _ _ hz' (by simpa using hno.2)
    have hw : s.writeOnce Z input = .error "deflate failed" := if_neg (by rw [hret]; decide)
    simp only [step, hw, Failed]
  | flushing s =>
    obtain ⟨f, hz⟩ := hx
    have hroom : s.availOut = 0 := not_not.1 hc
    have hret : (Z.deflate .finish s.z [] s.availOut.toNat).ret = .bufError := by
      rw [hroom]
      exact (hZ.noRoom _ _ _ _ [] hz).2
    simp [step, ZmmapStream.flushOnce, hret, Failed]
  | sent => exact absurd trivial hc
  | failed => exact absurd trivial hc

/-- A round of `write` that has room and something to do. -/
theorem sound_writing (hZ : Documented Z)
    (hm : ∀ f z i o, Deflated Z f z i o → i.length ≤ d.length → o.length ≤ m)
    {s : ZmmapStream σ} {input : Bytes} {next : List Bytes}
    (hx : Sound Z d (.writing s input next)) (hc : Callable Z (.writing s input next)) :
    (step Z (.writing s input next)).Sound Z d ∧ ¬ (step Z (.writing s input next)).Failed ∧
      (step Z (.writing s input next)).left m < left m (.writing s input next) := by
  obtain ⟨hlt, i, hz, hd⟩ := hx
  have hz' : Deflated Z .noFlush s.reserve.z i s.reserve.out := by simpa using hz
  have hw := hZ.write _ _ _ input _ hz' (ZmmapStream.room_pos hc.1) (by simpa using hc.2)
  have hnew := Deflated.write hz' hw.ret
  generalize hr : Z.deflate .noFlush s.reserve.z input s.reserve.availOut.toNat = r at hw hnew
  have hend : input.drop r.consumed = [] →
      step Z (.writing s input next) = write (s.reserve.after r) next := by
    intro hrest
    simp only [step, ZmmapStream.writeOnce, hr, hw.ret, if_true, hrest]
  have hmore : ∀ b bs, input.drop r.consumed = b :: bs →
      step Z (.writing s input next) = .writing (s.reserve.after r) (b :: bs) next := by
    intro b bs hrest
    simp only [step, ZmmapStream.writeOnce, hr, hw.ret, if_true, hrest]
  have hi : i.length + r.consumed ≤ d.length := by
    have := congrArg List.length hd
    simp only [List.length_append] at this
    have := hw.consumed_le
    omega
  have hle : s.out.length + r.out.length ≤ m := by
    have := hm _ _ _ _ hnew (by simp; omega)
    simpa using this
  have hroom := ZmmapStream.room_pos hc.1
  have hcons : i ++ input.take r.consumed ++ (input.drop r.consumed ++ next.flatten) = d := by
    rw [← hd, List.append_assoc, ← List.append_assoc (input.take _), List.take_append_drop,
      List.append_assoc]
  cases hrest : input.drop r.consumed with
  | nil =>
    rw [hend hrest]
    rw [hrest, List.nil_append] at hcons
    refine ⟨sound_write hnew hlt hcons, not_failed_write, ?_⟩
    have hwrite := left_write (m := m) (s := s.reserve.after r) hlt
    have hout : (s.reserve.after r).out.length = s.out.length + r.out.length := by
      simp [ZmmapStream.after]
    have hleft : left m (.writing s input next) =
        (m - s.out.length) + input.length + next.flatten.length + next.length + 1 := rfl
    rw [hout] at hwrite
    omega
  | cons b bs =>
    rw [hmore b bs hrest]
    refine ⟨⟨hlt, _, hnew, ?_⟩, not_false, ?_⟩
    · rw [hrest] at hcons
      rw [← hcons, List.append_assoc _ (b :: bs)]
    · have hdrop := congrArg List.length hrest
      simp only [List.length_drop, List.length_cons] at hdrop
      -- the input is not used up, so the room is
      have hfull : r.out.length = s.reserve.availOut.toNat := hw.stop.resolve_left (by omega)
      simp only [left, ZmmapStream.after, ZmmapStream.reserve_out, List.length_append,
        List.length_cons]
      omega

/-- A round of `flush` that has room. -/
theorem sound_flushing (hZ : Documented Z)
    (hm : ∀ f z i o, Deflated Z f z i o → i.length ≤ d.length → o.length ≤ m)
    {s : ZmmapStream σ} (hx : Sound Z d (.flushing s)) (hc : Callable Z (.flushing s)) :
    (step Z (.flushing s)).Sound Z d ∧ ¬ (step Z (.flushing s)).Failed ∧
      ((step Z (.flushing s)).Sent ∨ (step Z (.flushing s)).left m < left m (.flushing s)) := by
  obtain ⟨f, hz⟩ := hx
  have hroom := ZmmapStream.room_pos hc
  rcases hZ.finish _ _ _ _ _ hz hroom with hret | ⟨hret, hfull⟩
  · have hf : s.flushOnce Z =
        .ok (s.after (Z.deflate .finish s.z [] s.availOut.toNat), true) := by
      simp only [ZmmapStream.flushOnce, hret]
    simp only [step, hf]
    exact ⟨⟨f, s.z, s.out, _, hz, hret, rfl⟩, not_false, .inl trivial⟩
  · have hnew := Deflated.finish hz hret
    have hle := hm _ _ _ _ hnew le_rfl
    have hf : s.flushOnce Z =
        .ok ((s.after (Z.deflate .finish s.z [] s.availOut.toNat)).expandMap 0, false) := by
      simp only [ZmmapStream.flushOnce, hret]
    simp only [step, hf]
    refine ⟨⟨.finish, hnew⟩, not_false, .inr ?_⟩
    simp only [left, ZmmapStream.expandMap_out, ZmmapStream.after]
    rw [List.length_append] at hle ⊢
    omega

theorem sound_step (hZ : Documented Z)
    (hm : ∀ f z i o, Deflated Z f z i o → i.length ≤ d.length → o.length ≤ m)
    (hx : x.Sound Z d) (hc : x.Callable Z) (hf : ¬ x.Failed) :
    (x.step Z).Sound Z d ∧ ¬ (x.step Z).Failed ∧
      ((x.step Z).Sent ∨ (x.step Z).left m < x.left m) := by
  cases x with
  | writing s input next =>
    obtain ⟨h1, h2, h3⟩ := sound_writing hZ hm hx hc
    exact ⟨h1, h2, .inr h3⟩
  | flushing s => exact sound_flushing hZ hm hx hc
  | sent bytes => exact ⟨hx, not_false, .inl trivial⟩
  | failed e => exact absurd trivial hf

/-- If every call finds room and something to do, the stream is sent in the end. -/
theorem exists_sent (hZ : Documented Z)
    (hm : ∀ f z i o, Deflated Z f z i o → i.length ≤ d.length → o.length ≤ m) :
    ∀ (n : ℕ) {x : Sender σ}, x.left m ≤ n → x.Sound Z d → ¬ x.Failed →
      (∀ k, ((step Z)^[k] x).Callable Z) → ∃ k bytes, (step Z)^[k] x = .sent bytes ∧
        Complete Z bytes d := by
  intro n
  induction n with
  | zero =>
    intro x hl hx hf hc
    obtain ⟨hx', -, hsent | hlt⟩ := sound_step hZ hm hx (hc 0) hf
    · obtain ⟨bytes, hs⟩ := hsent.exists
      exact ⟨1, bytes, hs, by rwa [hs] at hx'⟩
    · omega
  | succ n ih =>
    intro x hl hx hf hc
    obtain ⟨hx', hf', hsent | hlt⟩ := sound_step hZ hm hx (hc 0) hf
    · obtain ⟨bytes, hs⟩ := hsent.exists
      exact ⟨1, bytes, hs, by rwa [hs] at hx'⟩
    · obtain ⟨k, bytes, hk, hb⟩ := ih (by omega) hx' hf' fun k => hc (k + 1)
      exact ⟨k + 1, bytes, hk, hb⟩

/-- Once it has failed, it stays so. -/
theorem failed_iterate : ∀ (n : ℕ) {x : Sender σ}, x.Failed → ((step Z)^[n] x).Failed
  | 0, _, h => h
  | n + 1, x, h => by
    rw [Function.iterate_succ_apply]
    refine failed_iterate n ?_
    cases x with
    | failed e => exact h
    | _ => exact h.elim

theorem sound_iterate (hZ : Documented Z) (hx : x.Sound Z d) : ∀ n, ((step Z)^[n] x).Sound Z d
  | 0 => hx
  | n + 1 => by
    obtain ⟨m, hm⟩ := hZ.bound d.length
    have ih := sound_iterate hZ hx n
    rw [Function.iterate_succ_apply']
    have hfail : ∀ {y : Sender σ}, y.Failed → y.Sound Z d := by
      intro y hy
      cases y with
      | failed e => trivial
      | _ => exact hy.elim
    by_cases hf : ((step Z)^[n] x).Failed
    · exact hfail (failed_iterate 1 hf)
    · by_cases hc : ((step Z)^[n] x).Callable Z
      · exact (sound_step hZ hm ih hc hf).1
      · exact hfail (failed_step hZ ih hc)

theorem sound_start (hP : P.Inverse (messages records)) :
    Sound Z ((messages records).flatMap P.pack) (start Z P records) := by
  refine sound_write .init ?_ ?_
  · intro buf hbuf
    obtain ⟨msg, -, hbuf⟩ := List.mem_flatMap.1 hbuf
    obtain ⟨harr, hraw, hnil⟩ := hP.header_le
    cases msg with
    | record r =>
      have := r.key_lt
      have := r.val_lt
      have := hraw r.key.length
      have := hraw r.val.length
      simp only [Msgpack.writes, List.mem_cons, List.not_mem_nil, or_false] at hbuf
      rcases hbuf with rfl | rfl | rfl | rfl | rfl <;> omega
    | nil =>
      simp only [Msgpack.writes, List.mem_singleton] at hbuf
      rw [hbuf]
      omega
  · rw [List.nil_append, List.flatMap_def, List.flatten_flatten, List.map_map, List.flatMap_def]
    rfl

/-- A stream that is sent has found room and something to do at every call. -/
theorem callable_of_sent (hZ : Documented Z) (hP : P.Inverse (messages records)) {n : ℕ}
    {bytes : Bytes} (hn : (step Z)^[n] (start Z P records) = .sent bytes) {k : ℕ}
    (hx : (step Z)^[k] (start Z P records) = x) : x.Callable Z := by
  subst hx
  by_contra hc
  have hfail := failed_step hZ (sound_iterate hZ (sound_start hP) k) hc
  rw [← Function.iterate_succ_apply' (step Z)] at hfail
  rcases Nat.lt_or_ge k n with hlt | hge
  · obtain ⟨j, rfl⟩ := Nat.exists_eq_add_of_lt hlt
    have := failed_iterate (Z := Z) j hfail
    rw [← Function.iterate_add_apply, show j + k.succ = k + j + 1 by omega, hn] at this
    exact this
  · obtain ⟨j, rfl⟩ := Nat.exists_eq_add_of_le hge
    rw [Nat.add_comm, Function.iterate_add_apply, hn, Function.iterate_fixed rfl] at hc
    exact hc trivial

/-- The stream is sent if and only if every call finds room and something to do. -/
theorem sent_iff (hZ : Documented Z) (hP : P.Inverse (messages records)) :
    (∃ n bytes, (step Z)^[n] (start Z P records) = .sent bytes ∧
      Complete Z bytes ((messages records).flatMap P.pack)) ↔
      ∀ n, ((step Z)^[n] (start Z P records)).Callable Z := by
  constructor
  · rintro ⟨n, bytes, hn, -⟩ k
    exact callable_of_sent hZ hP hn rfl
  · intro hc
    obtain ⟨m, hm⟩ := hZ.bound ((messages records).flatMap P.pack).length
    exact exists_sent hZ hm _ le_rfl (sound_start hP) not_failed_write hc

end Sender

/-! ## Receiving -/

namespace Zconnection

variable {msgs : List Msg} {c : Zconnection τ}

/-- The messages submitted are the first ones, and the buffer has what follows. -/
def Parsed (P : Msgpack) (msgs : List Msg) (d : Bytes) (c : Zconnection τ) : Prop :=
  ∃ todo, msgs = c.submitted ++ todo ∧ c.submitted.flatMap P.pack ++ c.buffer = d ∧
    c.buffer <+: todo.flatMap P.pack

theorem pack_ne (hP : P.Inverse msgs) (m : Msg) : P.pack m ≠ [] := by
  cases m with
  | record r => simp [Msgpack.pack, Msgpack.writes, hP.packArray_ne]
  | nil => simpa [Msgpack.pack, Msgpack.writes] using hP.packNil_ne

/-- The unpacker finds the next message if it is all there, and nothing otherwise. -/
theorem execute_cases (hP : P.Inverse msgs) {m : Msg} {ms : List Msg} (hm : m ∈ msgs) {buf : Bytes}
    (hbuf : buf <+: (m :: ms).flatMap P.pack) :
    P.execute buf = none ∧ buf.length < (P.pack m).length ∨
      ∃ rest, buf = P.pack m ++ rest ∧ P.execute buf = some (m, rest) ∧
        rest <+: ms.flatMap P.pack := by
  rw [List.flatMap_cons] at hbuf
  rcases List.prefix_or_prefix_of_prefix hbuf (List.prefix_append (P.pack m) _) with hp | hp
  · by_cases heq : buf = P.pack m
    · right
      refine ⟨[], by simp [heq], ?_, List.nil_prefix⟩
      have := hP.execute_pack m hm []
      rwa [List.append_nil, ← heq] at this
    · left
      refine ⟨hP.execute_prefix m hm buf hp heq, ?_⟩
      exact lt_of_le_of_ne hp.length_le fun h => heq (hp.eq_of_length h)
  · right
    obtain ⟨rest, rfl⟩ := hp
    exact ⟨rest, rfl, hP.execute_pack m hm rest, (List.prefix_append_right_inj _).1 hbuf⟩

/-- What is left when all has arrived. -/
theorem Parsed.buffer_eq {todo : List Msg} (hm : msgs = c.submitted ++ todo)
    (hd : c.submitted.flatMap P.pack ++ c.buffer = msgs.flatMap P.pack) :
    c.buffer = todo.flatMap P.pack := by
  rw [hm, List.flatMap_append] at hd
  exact List.append_cancel_left hd

theorem eq_nil_of_pack (hP : P.Inverse msgs) {todo : List Msg} (h : todo.flatMap P.pack = []) :
    todo = [] := by
  cases todo with
  | nil => rfl
  | cons m ms => exact absurd (List.append_eq_nil_iff.1 h).1 (pack_ne hP m)

theorem execute_nil (hP : P.Inverse msgs) (hne : msgs ≠ []) : P.execute [] = none := by
  obtain ⟨m, hm⟩ := List.exists_mem_of_ne_nil _ hne
  exact hP.execute_prefix m hm [] List.nil_prefix (pack_ne hP m).symm

/-- The messages that are all there are submitted. -/
theorem submitAll_spec (hP : P.Inverse msgs) (hne : msgs ≠ []) : ∀ (n : ℕ) {c : Zconnection τ}
    {d : Bytes}, c.buffer.length ≤ n → c.Parsed P msgs d → (submitAll P n c).Parsed P msgs d ∧
      (submitAll P n c).z = c.z ∧
      (d = msgs.flatMap P.pack → (submitAll P n c).submitted = msgs) := by
  intro n
  induction n with
  | zero =>
    rintro c d hn ⟨todo, hm, hd, hb⟩
    refine ⟨⟨todo, hm, hd, hb⟩, rfl, fun hall => ?_⟩
    have hbuf := Parsed.buffer_eq hm (hd.trans hall)
    rw [List.eq_nil_of_length_eq_zero (Nat.le_zero.1 hn)] at hbuf
    rw [eq_nil_of_pack hP hbuf.symm, List.append_nil] at hm
    exact hm.symm
  | succ n ih =>
    rintro c d hn ⟨todo, hm, hd, hb⟩
    cases todo with
    | nil =>
      have hbuf : c.buffer = [] := List.prefix_nil.1 hb
      have hexec : submitAll P (n + 1) c = c := by
        simp only [submitAll, hbuf, execute_nil hP hne]
      rw [hexec]
      exact ⟨⟨[], hm, hd, hb⟩, rfl, fun _ => by simpa using hm.symm⟩
    | cons m ms =>
      have hmem : m ∈ msgs := by simp [hm]
      rcases execute_cases hP hmem hb with ⟨hnone, hlt⟩ | ⟨rest, hbuf, hsome, hrest⟩
      · have hexec : submitAll P (n + 1) c = c := by simp only [submitAll, hnone]
        rw [hexec]
        refine ⟨⟨m :: ms, hm, hd, hb⟩, rfl, fun hall => ?_⟩
        have hbuf := Parsed.buffer_eq hm (hd.trans hall)
        rw [hbuf, List.flatMap_cons, List.length_append] at hlt
        omega
      · have hexec : submitAll P (n + 1) c =
            submitAll P n { c with buffer := rest, submitted := c.submitted ++ [m] } := by
          simp only [submitAll, hsome]
        rw [hexec]
        refine ih ?_ ⟨ms, by simp [hm], ?_, hrest⟩
        · have hpos := List.length_pos_of_ne_nil (pack_ne hP m)
          rw [hbuf, List.length_append] at hn
          show rest.length ≤ n
          omega
        · rw [← hd, hbuf]
          simp

theorem room_pos (hP : P.Reserves) (n : ℕ) : 0 < (P.availOut n).toNat := by
  obtain ⟨hle, hlt⟩ := hP n
  rw [Msgpack.availOut, UInt32.toNat_ofNat', Nat.mod_eq_of_lt hlt]
  omega

/-- More output in the buffer. -/
theorem Parsed.append {d out : Bytes} (h : c.Parsed P msgs d)
    (hd : d ++ out <+: msgs.flatMap P.pack) {z : τ} {n : ℕ} :
    Parsed P msgs (d ++ out) { c with z := z, calls := n, buffer := c.buffer ++ out } := by
  obtain ⟨todo, hm, rfl, -⟩ := h
  refine ⟨todo, hm, by simp, ?_⟩
  rw [hm, List.flatMap_append, List.append_assoc] at hd
  exact (List.prefix_append_right_inj _).1 hd

/-- The state of a receiver that has read `c₁` of the stream `bytes`. -/
structure Reading (Z : Zlib UInt8 σ τ) (P : Msgpack) (msgs : List Msg) (bytes c₁ d₁ : Bytes)
    (c : Zconnection τ) : Prop where
  inflated : Inflated Z c.z c₁ d₁
  parsed : c.Parsed P msgs d₁
  all : c₁ = bytes → d₁ = msgs.flatMap P.pack

theorem inflateAll_spec (hZ : Documented Z) (hP : P.Inverse msgs) {bytes : Bytes}
    (hb : Complete Z bytes (msgs.flatMap P.pack)) : ∀ (n : ℕ) {c : Zconnection τ}
    {c₁ d₁ input : Bytes}, input.length + ((msgs.flatMap P.pack).length - d₁.length) < n →
      Inflated Z c.z c₁ d₁ → c.Parsed P msgs d₁ → input ≠ [] → c₁ ++ input <+: bytes →
      ∃ c' d₂, inflateAll Z P n c input = some (.ok c') ∧
        c'.Reading Z P msgs bytes (c₁ ++ input) d₂ := by
  intro n
  induction n with
  | zero => exact fun h => absurd h (Nat.not_lt_zero _)
  | succ n ih =>
    intro c c₁ d₁ input hn hi hp hne hpre
    have hroom := room_pos hP.room c.calls
    have hr := hZ.read _ _ hb _ _ _ _ _ hi hne hroom hpre
    have hi' := @Inflated.read _ _ _ Z _ _ _ input (P.availOut c.calls).toNat hi
    generalize hres : Z.inflate c.z input (P.availOut c.calls).toNat = r at hr hi'
    have hp' := hp.append hr.inverse (z := r.state) (n := c.calls + 1)
    let next : Zconnection τ :=
      { c with z := r.state, calls := c.calls + 1, buffer := c.buffer ++ r.out }
    have hend : input.drop r.consumed = [] → inflateAll Z P (n + 1) c input =
        some (.ok next) := by
      intro hrest
      simp only [inflateAll, hres, if_pos hr.ret, hrest]
      rfl
    have hmore : ∀ b bs, input.drop r.consumed = b :: bs → inflateAll Z P (n + 1) c input =
        inflateAll Z P n next (b :: bs) := by
      intro b bs hrest
      simp only [inflateAll, hres, if_pos hr.ret, hrest]
      rfl
    cases hrest : input.drop r.consumed with
    | nil =>
      rw [hend hrest]
      have htake : input.take r.consumed = input := by
        have := List.take_append_drop r.consumed input
        rwa [hrest, List.append_nil] at this
      rw [htake] at hi'
      exact ⟨_, _, rfl, hi', hp', fun h => hr.trailer (by rw [htake, h])⟩
    | cons b bs =>
      rw [hmore b bs hrest]
      have hdrop := congrArg List.length hrest
      simp only [List.length_drop, List.length_cons] at hdrop
      -- the input is not used up, so the room is
      have hfull := hr.stop.resolve_left (by omega)
      have hle := hr.inverse.length_le
      rw [List.length_append] at hle
      have hsplit : c₁ ++ input.take r.consumed ++ (b :: bs) = c₁ ++ input := by
        rw [← hrest, List.append_assoc, List.take_append_drop]
      have hlt : (b :: bs).length + ((msgs.flatMap P.pack).length - (d₁ ++ r.out).length) < n := by
        simp only [List.length_cons, List.length_append]
        omega
      obtain ⟨c', d₂, hc', hread⟩ :=
        ih (c := next) hlt hi' hp' (by simp) (by rw [hsplit]; exact hpre)
      rw [hsplit] at hread
      exact ⟨c', d₂, hc', hread⟩

/-- However the rest of the stream is cut into reads, all messages have been submitted after it. -/
theorem receive_spec (hZ : Documented Z) (hP : P.Inverse msgs) (hne : msgs ≠ []) {bytes : Bytes}
    (hb : Complete Z bytes (msgs.flatMap P.pack)) {rounds : ℕ}
    (hrounds : bytes.length + (msgs.flatMap P.pack).length < rounds) :
    ∀ {reads : List Read} {c : Zconnection τ} {c₁ d₁ : Bytes}, c.Reading Z P msgs bytes c₁ d₁ →
      (c₁ = bytes → c.submitted = msgs) → (∀ r ∈ reads, r.Nonempty) →
      c₁ ++ readBytes reads = bytes →
      ∃ c', receive Z P rounds c reads = some (.ok c') ∧ c'.submitted = msgs
  | [], c, c₁, d₁, _, hsub, _, hall =>
    ⟨c, rfl, hsub (by simpa [readBytes] using hall)⟩
  | .again :: reads, c, c₁, d₁, hr, hsub, hdata, hall => by
    have hdata' : ∀ r ∈ reads, r.Nonempty := fun r h => hdata r (List.mem_cons_of_mem _ h)
    have h := receive_spec hZ hP hne hb hrounds hr hsub hdata' (by simpa [readBytes] using hall)
    exact h
  | .interrupted :: reads, c, c₁, d₁, hr, hsub, hdata, hall => by
    have hdata' : ∀ r ∈ reads, r.Nonempty := fun r h => hdata r (List.mem_cons_of_mem _ h)
    have h := receive_spec hZ hP hne hb hrounds hr hsub hdata' (by simpa [readBytes] using hall)
    exact h
  | .data input :: reads, c, c₁, d₁, hr, hsub, hdata, hall => by
    have hinput : input ≠ [] := hdata (.data input) List.mem_cons_self
    have hall : c₁ ++ input ++ readBytes reads = bytes := by
      rw [← hall, List.append_assoc]
      rfl
    have hpre : c₁ ++ input <+: bytes := ⟨_, hall⟩
    have hle := hpre.length_le
    rw [List.length_append] at hle
    obtain ⟨c', d₂, hc', hread⟩ := inflateAll_spec hZ hP hb rounds
      (by omega) hr.inflated hr.parsed hinput hpre
    obtain ⟨hp, hz, hdone⟩ := submitAll_spec hP hne c'.buffer.length le_rfl hread.parsed
    have hread' : (submitAll P c'.buffer.length c').Reading Z P msgs bytes (c₁ ++ input) d₂ :=
      ⟨hz ▸ hread.inflated, hp, hread.all⟩
    have hdata' : ∀ r ∈ reads, r.Nonempty := fun r h => hdata r (List.mem_cons_of_mem _ h)
    obtain ⟨c'', hc'', hfin⟩ := receive_spec hZ hP hne hb hrounds hread'
      (fun h => hdone (hread.all h)) hdata' hall
    refine ⟨c'', ?_, hfin⟩
    simp only [receive, readEvent, hc', Option.map_some, Except.map, Option.bind_some]
    exact hc''

end Zconnection

/-- A replace stream makes its way, however its bytes are cut into reads, if and only if `deflate`
has room and something to do whenever it is called. -/
theorem roundTrip_iff (hZ : Documented Z) (hP : P.Inverse (messages records)) :
    RoundTrip Z P records ↔ ∀ n, ((Sender.step Z)^[n] (.start Z P records)).Callable Z := by
  have hne : messages records ≠ [] := by simp [messages]
  rw [← Sender.sent_iff hZ hP]
  constructor
  · rintro ⟨bytes, ⟨n, hn⟩, -⟩
    have hsound := Sender.sound_iterate hZ (Sender.sound_start (Z := Z) hP) n
    rw [hn] at hsound
    exact ⟨n, bytes, hn, hsound⟩
  · rintro ⟨n, bytes, hn, hb⟩
    refine ⟨bytes, ⟨n, hn⟩, fun reads hdata hall => ?_⟩
    have hinit : Zconnection.Reading Z P (messages records) bytes [] [] (.init Z) :=
      ⟨.init, ⟨messages records, rfl, rfl, List.nil_prefix⟩,
        fun h => absurd h.symm (hZ.nonempty _ _ hb)⟩
    obtain ⟨c, hc, hsub⟩ := Zconnection.receive_spec hZ hP hne hb (Nat.lt_succ_self _) hinit
      (fun h => absurd h.symm (hZ.nonempty _ _ hb)) hdata (by simpa using hall)
    exact ⟨_, c, hc, hsub⟩

/-! The codec that gathers blocks of half a mebibyte, and a serializer with the headers of msgpack
that knows one record. -/

section Sample

open Sample

def rawHeader (n : ℕ) : Bytes :=
  if n < 32 then [UInt8.ofNat (0xa0 + n)]
  else if n < 65536 then [0xda, UInt8.ofNat (n / 256), UInt8.ofNat n]
  else
    [0xdb, UInt8.ofNat (n / 256 ^ 3), UInt8.ofNat (n / 256 ^ 2), UInt8.ofNat (n / 256),
      UInt8.ofNat n]

def packRecord (r : Record) : Bytes :=
  0x92 :: (rawHeader r.key.length ++ (r.key ++ (rawHeader r.val.length ++ r.val)))

def oneRecord (r : Record) : Msgpack where
  packArray n := [UInt8.ofNat (0x90 + n)]
  packRaw := rawHeader
  packNil := [0xc0]
  execute buf :=
    if packRecord r <+: buf then some (.record r, buf.drop (packRecord r).length)
    else if [0xc0] <+: buf then some (.nil, buf.drop 1)
    else none
  capacity _ := 128 * 1024

theorem rawHeader_le (n : ℕ) : (rawHeader n).length ≤ 5 := by
  unfold rawHeader
  split_ifs <;> simp

theorem pack_oneRecord (r : Record) : (oneRecord r).pack (.record r) = packRecord r := by
  simp [Msgpack.pack, Msgpack.writes, oneRecord, packRecord]

/-- A record and nil begin with different bytes. -/
theorem not_prefix_both {r : Record} {p : Bytes} (h : [0xc0] <+: p) : ¬ packRecord r <+: p := by
  obtain ⟨t, rfl⟩ := h
  simp [packRecord]

theorem reserves_oneRecord (r : Record) : (oneRecord r).Reserves := fun _ =>
  show 16 * 1024 ≤ 128 * 1024 ∧ 128 * 1024 < 2 ^ 32 by decide

theorem inverse_oneRecord (r : Record) : (oneRecord r).Inverse (messages [r]) where
  execute_pack m hm rest := by
    rcases List.mem_pair.1 hm with rfl | rfl
    · rw [pack_oneRecord]
      simp [oneRecord]
    · have h : [0xc0] <+: (oneRecord r).pack .nil ++ rest := List.prefix_append _ _
      have hrec : ¬ packRecord r <+: (oneRecord r).pack .nil ++ rest := not_prefix_both h
      simp only [oneRecord] at h hrec ⊢
      rw [if_neg hrec, if_pos h]
      rfl
  execute_prefix m hm p hp hne := by
    rcases List.mem_pair.1 hm with rfl | rfl
    · rw [pack_oneRecord] at hp hne
      have h : ¬ packRecord r <+: p := fun h =>
        hne (hp.eq_of_length (Nat.le_antisymm hp.length_le h.length_le))
      have h0 : ¬ [0xc0] <+: p := fun h0 => not_prefix_both (h0.trans hp) (List.prefix_refl _)
      simp only [oneRecord]
      rw [if_neg h, if_neg h0]
    · have hp : p <+: [0xc0] := hp
      have hnil : p = [] := by
        rcases List.prefix_cons_iff.1 hp with rfl | ⟨t, rfl, ht⟩
        · rfl
        · rw [List.prefix_nil.1 ht] at hne
          exact absurd rfl hne
      subst hnil
      rfl
  packArray_ne := by simp [oneRecord]
  packNil_ne := by simp [oneRecord]
  header_le := ⟨by simp [oneRecord], rawHeader_le, by simp [oneRecord]⟩
  room := reserves_oneRecord r

/-- Half the map: a block fills it. -/
def blockSize : ℕ := 524288

/-- The record and nil make one block. -/
def fullRecord : Record where
  key := entryKey
  val := List.replicate 524271 0
  key_lt := by decide
  val_lt := by rw [List.length_replicate]; decide

theorem length_fullRecord_val : fullRecord.val.length = 524271 := List.length_replicate

/-- The headers of a key of less than 32 bytes and of a value of at least 64 kibibytes. -/
theorem length_packRecord {r : Record} (hkey : r.key.length < 32) (hval : 65536 ≤ r.val.length) :
    (packRecord r).length = r.key.length + r.val.length + 7 := by
  have hrawKey : (rawHeader r.key.length).length = 1 := by
    rw [rawHeader, if_pos hkey]
    rfl
  have hrawVal : (rawHeader r.val.length).length = 5 := by
    rw [rawHeader, if_neg (by omega), if_neg (by omega)]
    rfl
  simp only [packRecord, List.length_cons, List.length_append, hrawKey, hrawVal]
  omega

theorem length_packRecord_fullRecord : (packRecord fullRecord).length + 1 = blockSize := by
  have hval := length_fullRecord_val
  have hkey : fullRecord.key.length = 9 := rfl
  rw [length_packRecord (hkey ▸ by decide) (hval ▸ by decide), hval, hkey]
  rfl

def smallRecord : Record := ⟨entryKey, entryVal, by decide, by decide⟩

namespace Sender

variable {n : ℕ} {room : UInt32}

/-- A write where the map need not grow. -/
theorem step_gather {z : Gather} {out input : Bytes} {next : List Bytes}
    (hroom : zmmapStreamReserveSize ≤ room) (hne : input ≠ []) :
    step (gather n) (.writing ⟨z, out, room⟩ input next) =
      write (ZmmapStream.after ⟨z, out, room⟩ ⟨.ok, input.length,
        (z.block n input).queue.take room.toNat,
        { z.block n input with queue := (z.block n input).queue.drop room.toNat }⟩) next := by
  have hres : ZmmapStream.reserve (⟨z, out, room⟩ : ZmmapStream Gather) = ⟨z, out, room⟩ :=
    if_neg (UInt32.not_lt.2 hroom)
  have hgo : ¬ (room.toNat = 0 ∨ input = [] ∧ z.queue = []) := by
    rintro (h0 | ⟨h1, -⟩)
    · have := UInt32.le_iff_toNat_le.1 hroom
      rw [h0] at this
      exact absurd this (by decide)
    · exact hne h1
  simp only [step, ZmmapStream.writeOnce, hres, gather, Gather.deflate, if_neg hgo, if_true,
    List.drop_length]

/-- While there is no block yet, `deflate` writes nothing. -/
theorem step_hold {held input : Bytes} {next : List Bytes} (hroom : zmmapStreamReserveSize ≤ room)
    (hne : input ≠ []) (hlt : (held ++ input).length < n) :
    step (gather n) (.writing ⟨⟨held, [], false⟩, [], room⟩ input next) =
      write ⟨⟨held ++ input, [], false⟩, [], room⟩ next := by
  have hblock : Gather.block n ⟨held, [], false⟩ input = ⟨held ++ input, [], false⟩ :=
    if_neg (Nat.not_le.2 hlt)
  rw [step_gather hroom hne, hblock]
  simp [ZmmapStream.after]

theorem iterate_hold (hroom : zmmapStreamReserveSize ≤ room) {next : List Bytes} :
    ∀ {bufs : List Bytes} {held : Bytes}, (∀ buf ∈ bufs, buf ≠ [] ∧ buf.length < 2 ^ 32) →
      (held ++ bufs.flatten).length < n →
      (step (gather n))^[bufs.length] (write ⟨⟨held, [], false⟩, [], room⟩ (bufs ++ next)) =
        write ⟨⟨held ++ bufs.flatten, [], false⟩, [], room⟩ next
  | [], held, _, _ => by simp
  | buf :: bufs, held, hbufs, hlt => by
    obtain ⟨hne, hle⟩ := hbufs buf List.mem_cons_self
    have hstep : step (gather n) (write ⟨⟨held, [], false⟩, [], room⟩ (buf :: (bufs ++ next))) =
        write ⟨⟨held ++ buf, [], false⟩, [], room⟩ (bufs ++ next) := by
      rw [write, availIn_eq hle]
      refine step_hold hroom hne ?_
      rw [List.flatten_cons, ← List.append_assoc, List.length_append] at hlt
      omega
    rw [List.length_cons, Function.iterate_succ_apply, List.cons_append, hstep, List.flatten_cons,
      ← List.append_assoc]
    refine iterate_hold hroom (fun b hb => hbufs b (List.mem_cons_of_mem _ hb)) ?_
    rwa [List.append_assoc]

end Sender

section OneBlock

variable {r : Record}

theorem rawHeader_ne (k : ℕ) : rawHeader k ≠ [] := by
  unfold rawHeader
  split_ifs <;> simp

theorem writes_oneRecord (hkey : r.key ≠ []) (hval : r.val ≠ []) :
    ∀ buf ∈ (oneRecord r).writes (.record r), buf ≠ [] ∧ buf.length < 2 ^ 32 := by
  have hraw : ∀ k, rawHeader k ≠ [] ∧ (rawHeader k).length < 2 ^ 32 := fun k =>
    ⟨rawHeader_ne k, lt_of_le_of_lt (rawHeader_le k) (by decide)⟩
  simp only [Msgpack.writes, List.mem_cons, List.not_mem_nil, or_false, oneRecord]
  rintro buf (rfl | rfl | rfl | rfl | rfl)
  · exact ⟨by simp, by simp⟩
  · exact hraw _
  · exact ⟨hkey, r.key_lt⟩
  · exact hraw _
  · exact ⟨hval, r.val_lt⟩

/-- A record that does not make a block is held until nil is written. -/
theorem iterate_oneRecord (hkey : r.key ≠ []) (hval : r.val ≠ [])
    (hlt : (packRecord r).length < blockSize) :
    (Sender.step (gather blockSize))^[5] (.start (gather blockSize) (oneRecord r) [r]) =
      .writing ⟨⟨packRecord r, [], false⟩, [], UInt32.ofNat zmmapStreamInitialSize⟩ [0xc0] [] := by
  have hroom : zmmapStreamReserveSize ≤ UInt32.ofNat zmmapStreamInitialSize := by decide
  have hheld := @Sender.iterate_hold blockSize _ hroom [(oneRecord r).packNil] _ []
    (writes_oneRecord hkey hval) (by rwa [List.nil_append, ← Msgpack.pack, pack_oneRecord])
  rw [List.nil_append, ← Msgpack.pack, pack_oneRecord] at hheld
  exact hheld

/-- Where the record and nil make just a block, there is no room left in the map for `flush`. -/
theorem flushing_oneRecord (hkey : r.key ≠ []) (hval : r.val ≠ [])
    (hlen : (packRecord r).length + 1 = blockSize) : ∃ s : ZmmapStream Gather,
    (Sender.step (gather blockSize))^[6] (.start (gather blockSize) (oneRecord r) [r]) =
      .flushing s ∧ s.availOut = 0 := by
  have hfull : (packRecord r ++ [0xc0]).length = blockSize := by
    rw [List.length_append]
    exact hlen
  have hblock : Gather.block blockSize ⟨packRecord r, [], false⟩ [0xc0] =
      ⟨[], mark (packRecord r ++ [0xc0]), false⟩ := if_pos hfull.ge
  have hmark : (mark (packRecord r ++ [0xc0])).length = zmmapStreamInitialSize := by
    rw [length_mark, hfull]
    rfl
  have hroom : (UInt32.ofNat zmmapStreamInitialSize).toNat = zmmapStreamInitialSize := rfl
  rw [Function.iterate_succ_apply', iterate_oneRecord hkey hval (by omega),
    Sender.step_gather (by decide) (by simp), hblock]
  refine ⟨_, rfl, ?_⟩
  simp only [ZmmapStream.after, hroom, List.take_of_length_le hmark.le, hmark]
  decide

theorem not_roundTrip_of_full (hkey : r.key ≠ []) (hval : r.val ≠ [])
    (hlen : (packRecord r).length + 1 = blockSize) :
    ¬ RoundTrip (gather blockSize) (oneRecord r) [r] := by
  rintro ⟨bytes, ⟨n, hn⟩, -⟩
  obtain ⟨s, hs, hroom⟩ := flushing_oneRecord hkey hval hlen
  exact Sender.callable_of_sent (documented_gather _) (inverse_oneRecord r) hn hs hroom

/-- Where they make none, all is sent by the first call of `flush`. -/
theorem sent_oneRecord (hkey : r.key ≠ []) (hval : r.val ≠ [])
    (hlt : (packRecord r).length + 1 < blockSize) : ∃ bytes,
    (Sender.step (gather blockSize))^[7] (.start (gather blockSize) (oneRecord r) [r]) =
      .sent bytes := by
  have hlen : (packRecord r ++ [0xc0]).length < blockSize := by
    rw [List.length_append]
    exact hlt
  have hlast : (Gather.last ⟨packRecord r ++ [0xc0], [], false⟩).length ≤
      (UInt32.ofNat zmmapStreamInitialSize).toNat := by
    show (mark (packRecord r ++ [0xc0]) ++ [0]).length ≤ 1024 * 1024
    rw [List.length_append, length_mark]
    simp only [blockSize, List.length_singleton] at hlen ⊢
    omega
  rw [Function.iterate_succ_apply', Function.iterate_succ_apply',
    iterate_oneRecord hkey hval (by omega), Sender.step_hold (by decide) (by simp) hlen]
  obtain ⟨s, hs⟩ : ∃ s, ZmmapStream.flushOnce (gather blockSize)
      ⟨⟨packRecord r ++ [0xc0], [], false⟩, [], UInt32.ofNat zmmapStreamInitialSize⟩ =
        .ok (s, true) := by
    simp only [ZmmapStream.flushOnce, gather, Gather.deflate, if_pos hlast]
    exact ⟨_, rfl⟩
  exact ⟨s.out, by simp only [Sender.write, Sender.step, hs]⟩

end OneBlock

theorem not_roundTrip_fullRecord : Documented (gather blockSize) ∧
    (oneRecord fullRecord).Inverse (messages [fullRecord]) ∧
    ¬ RoundTrip (gather blockSize) (oneRecord fullRecord) [fullRecord] :=
  ⟨documented_gather _, inverse_oneRecord _,
    not_roundTrip_of_full (by decide)
      (List.ne_nil_of_length_pos (length_fullRecord_val ▸ by decide)) length_packRecord_fullRecord⟩

theorem roundTrip_smallRecord : Documented (gather blockSize) ∧
    (oneRecord smallRecord).Inverse (messages [smallRecord]) ∧
    (∀ n, ((Sender.step (gather blockSize))^[n]
      (.start (gather blockSize) (oneRecord smallRecord) [smallRecord])).Callable
        (gather blockSize)) ∧
    RoundTrip (gather blockSize) (oneRecord smallRecord) [smallRecord] := by
  obtain ⟨bytes, hn⟩ := sent_oneRecord (r := smallRecord) (by decide) (by decide) (by decide)
  have hc := fun n => Sender.callable_of_sent (documented_gather _) (inverse_oneRecord _) hn
    (Eq.refl ((Sender.step (gather blockSize))^[n] _))
  exact ⟨documented_gather _, inverse_oneRecord _, hc,
    (roundTrip_iff (documented_gather _) (inverse_oneRecord _)).2 hc⟩

end Sample

end Kumofs.Server
