import Mathlib.Data.List.Basic

/-!
# A streaming codec

The interface of a compressor that is called with some input and some room for output, as often as
it takes, and what its documentation promises. A call that can do nothing, for want of room or of
something to do, is refused with `bufError`. What the calls have consumed and produced is what a
state stands for; the decompressor gives back what was compressed, however its input is cut.
-/

namespace Codec

inductive Flush
  | noFlush | finish
  deriving DecidableEq, Repr

inductive Ret
  | ok | streamEnd | bufError | dataError
  deriving DecidableEq, Repr

/-- What a call returns: how much of its input it has consumed, its output, and the state. -/
structure Outcome (β σ : Type*) where
  ret : Ret
  consumed : ℕ
  out : List β
  state : σ

/-- `deflate` and `inflate` take the input and the room there is for output. -/
structure Zlib (β σ τ : Type*) where
  deflateInit : σ
  deflate : Flush → σ → List β → ℕ → Outcome β σ
  /-- There is output that had no room yet. -/
  pending : σ → Bool
  inflateInit : τ
  inflate : τ → List β → ℕ → Outcome β τ

variable {β σ τ : Type*} (Z : Zlib β σ τ)

/-- The state of a stream that has consumed `i` and produced `o`, before and after the first call
that finishes it. -/
inductive Deflated : Flush → σ → List β → List β → Prop
  | init : Deflated .noFlush Z.deflateInit [] []
  | write {z : σ} {i o input : List β} {room : ℕ} : Deflated .noFlush z i o →
      (Z.deflate .noFlush z input room).ret = .ok →
      Deflated .noFlush (Z.deflate .noFlush z input room).state
        (i ++ input.take (Z.deflate .noFlush z input room).consumed)
        (o ++ (Z.deflate .noFlush z input room).out)
  | finish {f : Flush} {z : σ} {i o : List β} {room : ℕ} : Deflated f z i o →
      (Z.deflate .finish z [] room).ret = .ok →
      Deflated .finish (Z.deflate .finish z [] room).state i
        (o ++ (Z.deflate .finish z [] room).out)

/-- `c` is the whole stream for `d`. -/
def Complete (c d : List β) : Prop :=
  ∃ f z o room, Deflated Z f z d o ∧ (Z.deflate .finish z [] room).ret = .streamEnd ∧
    c = o ++ (Z.deflate .finish z [] room).out

/-- The state of a stream of which `c` has been consumed for the output `d`. -/
inductive Inflated : τ → List β → List β → Prop
  | init : Inflated Z.inflateInit [] []
  | read {z : τ} {c d input : List β} {room : ℕ} : Inflated z c d →
      Inflated (Z.inflate z input room).state
        (c ++ input.take (Z.inflate z input room).consumed)
        (d ++ (Z.inflate z input room).out)

/-- What is promised of a call of `deflate` that adds input. -/
structure Writes (z : σ) (input : List β) (room : ℕ) (r : Outcome β σ) : Prop where
  ret : r.ret = .ok
  consumed_le : r.consumed ≤ input.length
  out_le : r.out.length ≤ room
  /-- It stops when the input is used up or the room is. -/
  stop : r.consumed = input.length ∨ r.out.length = room
  /-- Without input there was output to be written. -/
  flushed : input = [] → r.out ≠ []

/-- What is promised of a call of `inflate` on the way through the stream `c` for `d`. -/
structure Reads (c d c₁ d₁ input : List β) (room : ℕ) (r : Outcome β τ) : Prop where
  ret : r.ret = .ok ∨ r.ret = .streamEnd
  consumed_le : r.consumed ≤ input.length
  out_le : r.out.length ≤ room
  stop : r.consumed = input.length ∨ r.out.length = room
  inverse : d₁ ++ r.out <+: d
  /-- The end of the stream is only consumed when all output has been produced. -/
  trailer : c₁ ++ input.take r.consumed = c → d₁ ++ r.out = d

structure Documented : Prop where
  noRoom : ∀ f z i o input, Deflated Z f z i o → (Z.deflate f z input 0).ret = .bufError ∧
    (Z.deflate .finish z [] 0).ret = .bufError
  noProgress : ∀ z i o room, Deflated Z .noFlush z i o → Z.pending z = false →
    (Z.deflate .noFlush z [] room).ret = .bufError
  write : ∀ z i o input room, Deflated Z .noFlush z i o → 0 < room →
    input ≠ [] ∨ Z.pending z = true → Writes z input room (Z.deflate .noFlush z input room)
  finish : ∀ f z i o room, Deflated Z f z i o → 0 < room →
    (Z.deflate .finish z [] room).ret = .streamEnd ∨
      (Z.deflate .finish z [] room).ret = .ok ∧ (Z.deflate .finish z [] room).out.length = room
  /-- `deflateBound`. -/
  bound : ∀ n, ∃ m, ∀ f z i o, Deflated Z f z i o → i.length ≤ n → o.length ≤ m
  /-- A stream has at least its header. -/
  nonempty : ∀ c d, Complete Z c d → c ≠ []
  read : ∀ c d, Complete Z c d → ∀ z c₁ d₁ input room, Inflated Z z c₁ d₁ → input ≠ [] →
    0 < room → c₁ ++ input <+: c → Reads c d c₁ d₁ input room (Z.inflate z input room)

/-- What is promised of `inflate` before the end of the stream, on any input behind `c`. -/
structure Advances (Whole : List β → Prop) (c input : List β) (room : ℕ) (r : Outcome β τ) :
    Prop where
  consumed_le : r.consumed ≤ input.length
  stop : r.ret = .ok → r.consumed = input.length ∨ r.out.length = room
  streamEnd_iff : r.ret = .streamEnd ↔ Whole (c ++ input.take r.consumed)
  /-- It does not go beyond the end. -/
  not_beyond : ∀ s, Whole s → c <+: s → s <+: c ++ input.take r.consumed →
    s = c ++ input.take r.consumed
  /-- What a stream begins with, or begins with a stream, is no error. -/
  accepts : ∀ s, Whole s → c <+: s → s <+: c ++ input ∨ c ++ input <+: s →
    r.ret = .ok ∨ r.ret = .streamEnd

/-- What is promised of `inflate` on any bytes, where the streams are those that `Whole` tells. -/
structure Decodes (Whole : List β → Prop) : Prop where
  not_whole_nil : ¬ Whole []
  /-- There is a limit to what some bytes can stand for. -/
  bound : ∀ n, ∃ m, ∀ z c d, Inflated Z z c d → c.length ≤ n → d.length ≤ m
  advance : ∀ z c d input room, Inflated Z z c d → ¬ Whole c → input ≠ [] → 0 < room →
    Advances Whole c input room (Z.inflate z input room)
  ended : ∀ z c d input room, Inflated Z z c d → Whole c →
    (Z.inflate z input room).ret = .streamEnd ∧ (Z.inflate z input room).consumed = 0

/-! ## A codec

One that is as documented, though it does not compress: it gathers its input in blocks, puts a one
before each byte and a zero at the end. -/

section Gather

def mark (xs : List UInt8) : List UInt8 := xs.flatMap fun b => [1, b]

@[simp] theorem mark_nil : mark [] = [] := rfl

@[simp] theorem mark_cons (b : UInt8) (xs : List UInt8) : mark (b :: xs) = 1 :: b :: mark xs := rfl

@[simp] theorem mark_append (xs ys : List UInt8) : mark (xs ++ ys) = mark xs ++ mark ys := by
  simp [mark]

theorem length_mark (xs : List UInt8) : (mark xs).length = 2 * xs.length := by
  induction xs with
  | nil => rfl
  | cons b xs ih => simp [ih]; omega

/-- The beginning of a stream is that of its data. -/
theorem mark_prefix : ∀ {d D t : List UInt8}, mark d ++ t <+: mark D ++ [0] →
    ∃ D', D = d ++ D' ∧ t <+: mark D' ++ [0]
  | [], D, t, h => ⟨D, rfl, h⟩
  | a :: d, [], t, h => by simp at h
  | a :: d, b :: D, t, h => by
    simp only [mark_cons, List.cons_append, List.cons_prefix_cons, true_and] at h
    obtain ⟨D', rfl, ht⟩ := mark_prefix h.2
    exact ⟨D', by rw [h.1]; rfl, ht⟩

structure Gather where
  held : List UInt8
  queue : List UInt8
  fin : Bool
  deriving DecidableEq

/-- The input so far, once there is a block of it, to be written. -/
def Gather.block (n : ℕ) (z : Gather) (input : List UInt8) : Gather :=
  if n ≤ (z.held ++ input).length then ⟨[], z.queue ++ mark (z.held ++ input), z.fin⟩
  else ⟨z.held ++ input, z.queue, z.fin⟩

def Gather.last (z : Gather) : List UInt8 :=
  if z.fin then z.queue else z.queue ++ mark z.held ++ [0]

def Gather.deflate (n : ℕ) (z : Gather) (input : List UInt8) (room : ℕ) :
    Flush → Outcome UInt8 Gather
  | .noFlush =>
    if room = 0 ∨ input = [] ∧ z.queue = [] then ⟨.bufError, 0, [], z⟩
    else
      let z := z.block n input
      ⟨.ok, input.length, z.queue.take room, { z with queue := z.queue.drop room }⟩
  | .finish =>
    if room = 0 then ⟨.bufError, 0, [], z⟩
    else
      ⟨if z.last.length ≤ room then .streamEnd else .ok, 0, z.last.take room,
        ⟨[], z.last.drop room, true⟩⟩

/-- What the reader expects next. -/
inductive Expect
  | head | byte | nothing
  deriving DecidableEq

/-- How much is consumed, the output, and what is expected then. -/
def unmark : Expect → List UInt8 → ℕ → ℕ × List UInt8 × Expect
  | .head, b :: xs, room =>
    if b = 1 then Prod.map (· + 1) id (unmark .byte xs room)
    else if b = 0 then (1, [], .nothing)
    else (0, [], .head)
  | .byte, b :: xs, room + 1 =>
    Prod.map (· + 1) (Prod.map (b :: ·) id) (unmark .head xs room)
  | p, _, _ => (0, [], p)

def gather (n : ℕ) : Zlib UInt8 Gather Expect where
  deflateInit := ⟨[], [], false⟩
  deflate f z input room := z.deflate n input room f
  pending z := z.queue ≠ []
  inflateInit := .head
  inflate z input room :=
    let r := unmark z input room
    ⟨if r.2.2 = .nothing then .streamEnd else if room = 0 ∨ input = [] then .bufError else .ok,
      r.1, r.2.1, r.2.2⟩

variable {n : ℕ}

theorem Gather.block_spec (z : Gather) (input : List UInt8) :
    (z.block n input).fin = z.fin ∧ (z.block n input).queue ++ mark (z.block n input).held =
      z.queue ++ mark (z.held ++ input) := by
  unfold block
  split_ifs <;> simp

/-- What has been written and what is left to write make the stream of what has been consumed. -/
theorem deflated_gather {f : Flush} {z : Gather} {i o : List UInt8}
    (h : Deflated (gather n) f z i o) :
    z.fin = (f = .finish) ∧ mark i ++ [0] = o ++ z.last := by
  induction h with
  | init => exact ⟨by simp [gather], rfl⟩
  | @write z i o input room _ hret ih =>
    obtain ⟨hfin, hio⟩ := ih
    have hfin : z.fin = false := by simpa using hfin
    have hgo : ¬ (room = 0 ∨ input = [] ∧ z.queue = []) := by
      intro hno
      simp only [gather, Gather.deflate, if_pos hno] at hret
      cases hret
    obtain ⟨hfin', hqueue⟩ := z.block_spec (n := n) input
    simp only [gather, Gather.deflate, if_neg hgo, List.take_length]
    refine ⟨by simp [hfin', hfin], ?_⟩
    have hio : mark i = o ++ (z.queue ++ mark z.held) := by
      rw [Gather.last, if_neg (by simp [hfin])] at hio
      simpa [← List.append_assoc] using hio
    rw [Gather.last, if_neg (by simp [hfin', hfin])]
    simp only []
    rw [List.append_assoc o, ← List.append_assoc (List.take _ _),
      ← List.append_assoc (List.take _ _), List.take_append_drop, hqueue, mark_append, mark_append,
      hio]
    simp
  | @finish f z i o room _ hret ih =>
    obtain ⟨-, hio⟩ := ih
    have hgo : room ≠ 0 := by
      rintro rfl
      simp [gather, Gather.deflate] at hret
    simp only [gather, Gather.deflate, if_neg hgo]
    refine ⟨by simp, ?_⟩
    have hlast : Gather.last ⟨[], z.last.drop room, true⟩ = z.last.drop room := rfl
    rw [hlast, List.append_assoc, List.take_append_drop]
    exact hio

theorem complete_gather {c d : List UInt8} (h : Complete (gather n) c d) : c = mark d ++ [0] := by
  obtain ⟨f, z, o, room, hz, hret, rfl⟩ := h
  rw [(deflated_gather hz).2]
  have hgo : room ≠ 0 := by
    rintro rfl
    simp [gather, Gather.deflate] at hret
  simp only [gather, Gather.deflate, if_neg hgo] at hret ⊢
  rw [List.take_of_length_le]
  by_contra hlen
  rw [if_neg hlen] at hret
  cases hret

/-- What has been read since the last output. -/
def Expect.since : Expect → List UInt8
  | .head => []
  | .byte => [1]
  | .nothing => [0]

/-- What has been read stands for what has been put out. -/
def Expect.Stands (p : Expect) (c d : List UInt8) : Prop := c = mark d ++ p.since

theorem Expect.Stands.head {c d : List UInt8} (h : Expect.head.Stands c d) :
    Expect.byte.Stands (c ++ [1]) d := by
  rw [Stands, show c = mark d ++ [] from h]
  simp [since]

theorem Expect.Stands.byte {c d : List UInt8} (h : Expect.byte.Stands c d) (b : UInt8) :
    Expect.head.Stands (c ++ [b]) (d ++ [b]) := by
  rw [Stands, show c = mark d ++ [1] from h]
  simp [since]

theorem unmark_stands : ∀ (p : Expect) (xs : List UInt8) (room : ℕ) {c d : List UInt8},
    p.Stands c d → (unmark p xs room).2.2.Stands (c ++ xs.take (unmark p xs room).1)
        (d ++ (unmark p xs room).2.1) ∧
      (unmark p xs room).1 ≤ xs.length ∧ (unmark p xs room).2.1.length ≤ room := by
  intro p xs room
  fun_induction unmark p xs room with
  | case1 xs room ih =>
    intro c d h
    obtain ⟨hs, hle, hout⟩ := ih h.head
    exact ⟨by simpa using hs, Nat.succ_le_succ hle, hout⟩
  | case2 xs room =>
    intro c d h
    refine ⟨?_, by simp, by simp⟩
    rw [Expect.Stands, show c = mark d ++ [] from h]
    simp [Expect.since]
  | case3 =>
    intro c d h
    simpa using h
  | case4 b xs room ih =>
    intro c d h
    obtain ⟨hs, hle, hout⟩ := ih (h.byte b)
    exact ⟨by simpa using hs, Nat.succ_le_succ hle, Nat.succ_le_succ hout⟩
  | case5 =>
    intro c d h
    simpa using h

/-- The data that a reader in a stream has still to come to. -/
theorem Expect.Stands.rest {p : Expect} {c d D xs : List UInt8} (h : p.Stands c d)
    (hpre : c ++ xs <+: mark D ++ [0]) : ∃ D', D = d ++ D' ∧ p.since ++ xs <+: mark D' ++ [0] := by
  rw [show c = mark d ++ p.since from h, List.append_assoc] at hpre
  exact mark_prefix hpre

/-- The reader goes on through a stream while it has input and room. -/
theorem unmark_stop {D : List UInt8} : ∀ (p : Expect) (xs : List UInt8) (room : ℕ)
    {c d : List UInt8}, p.Stands c d → c ++ xs <+: mark D ++ [0] →
      (unmark p xs room).1 = xs.length ∨ (unmark p xs room).2.1.length = room := by
  intro p xs room
  fun_induction unmark p xs room with
  | case1 xs room ih =>
    intro c d h hpre
    exact (ih h.head (by simpa using hpre)).imp_left (congrArg (· + 1))
  | case2 xs room =>
    intro c d h hpre
    obtain ⟨D', -, ht⟩ := h.rest hpre
    cases D' with
    | nil => exact .inl (by simpa [Expect.since] using ht)
    | cons b D' => simp [Expect.since] at ht
  | case3 b xs room h1 h0 =>
    intro c d h hpre
    obtain ⟨D', -, ht⟩ := h.rest hpre
    cases D' with
    | nil => simp [Expect.since, h0] at ht
    | cons a D' => simp [Expect.since, h1] at ht
  | case4 b xs room ih =>
    intro c d h hpre
    exact (ih (h.byte b) (by simpa using hpre)).imp (congrArg (· + 1)) (congrArg (· + 1))
  | case5 xs p room hhead hbyte =>
    intro c d h hpre
    obtain ⟨D', -, ht⟩ := h.rest hpre
    cases xs with
    | nil => exact .inl rfl
    | cons b xs =>
      cases p with
      | head => exact (hhead b xs rfl rfl).elim
      | byte =>
        cases room with
        | zero => exact .inr rfl
        | succ room => exact (hbyte b xs room rfl rfl rfl).elim
      | nothing => cases D' <;> simp [Expect.since] at ht

theorem inflated_gather {z : Expect} {c d : List UInt8} (h : Inflated (gather n) z c d) :
    z.Stands c d := by
  induction h with
  | init => rfl
  | @read z c d input room _ ih => exact (unmark_stands z input room ih).1

theorem reads_gather {D : List UInt8} {z : Expect} {c₁ d₁ input : List UInt8} {room : ℕ}
    (hz : z.Stands c₁ d₁) (hne : input ≠ []) (hroom : 0 < room)
    (hpre : c₁ ++ input <+: mark D ++ [0]) :
    Reads (mark D ++ [0]) D c₁ d₁ input room ((gather n).inflate z input room) := by
  obtain ⟨hs, hle, hout⟩ := unmark_stands z input room hz
  have hpre' : c₁ ++ input.take (unmark z input room).1 ++ [] <+: mark D ++ [0] := by
    rw [List.append_nil]
    exact ((List.prefix_append_right_inj _).2 (List.take_prefix _ _)).trans hpre
  obtain ⟨D', hD, hrest⟩ := hs.rest hpre'
  refine ⟨?_, hle, hout, unmark_stop z input room hz hpre, ⟨D', hD.symm⟩, fun hall => ?_⟩
  · simp only [gather]
    split_ifs with h1 h2
    · exact .inr rfl
    · exact absurd h2 (by simp [hne]; omega)
    · exact .inl rfl
  · -- what has been read since the last output is the end mark
    have hend : (unmark z input room).2.2.since = mark D' ++ [0] := by
      have := (show _ = mark _ ++ _ from hs).symm.trans hall
      rw [hD, mark_append (d₁ ++ _) D', List.append_assoc (mark (d₁ ++ _))] at this
      exact List.append_cancel_left this
    have hlen := congrArg List.length hend
    have hsince : (unmark z input room).2.2.since.length ≤ 1 := by
      cases (unmark z input room).2.2 <;> simp [Expect.since]
    rw [List.length_append, length_mark, List.length_singleton] at hlen
    obtain rfl : D' = [] := List.eq_nil_of_length_eq_zero (by omega)
    rw [List.append_nil] at hD
    exact hD.symm

theorem documented_gather (n : ℕ) : Documented (gather n) where
  noRoom f z i o input _ := by
    cases f <;> simp [gather, Gather.deflate]
  noProgress z i o room _ hp := by
    have hq : z.queue = [] := by simpa [gather] using hp
    simp [gather, Gather.deflate, hq]
  write z i o input room hz hroom hgo := by
    have hr : ¬ (room = 0 ∨ input = [] ∧ z.queue = []) := by
      rintro (h0 | ⟨h1, h2⟩)
      · omega
      · simp [gather, h1, h2] at hgo
    simp only [gather, Gather.deflate, if_neg hr]
    refine ⟨rfl, Nat.le_refl _, List.length_take_le _ _, .inl rfl, fun hnil => ?_⟩
    have hq : z.queue ≠ [] := fun h => hr (.inr ⟨hnil, h⟩)
    have hblock : (z.block n input).queue ≠ [] := by
      unfold Gather.block
      split_ifs <;> simp [hq]
    simp only [ne_eq, List.take_eq_nil_iff, not_or]
    exact ⟨by omega, hblock⟩
  finish f z i o room _ hroom := by
    have hr : room ≠ 0 := by omega
    simp only [gather, Gather.deflate, if_neg hr]
    by_cases hle : z.last.length ≤ room
    · exact .inl (if_pos hle)
    · refine .inr ⟨if_neg hle, ?_⟩
      rw [List.length_take]
      omega
  bound n := by
    refine ⟨2 * n + 1, fun f z i o hz hi => ?_⟩
    have := congrArg List.length (deflated_gather hz).2
    simp only [List.length_append, length_mark, List.length_singleton] at this
    omega
  nonempty c d hc := by simp [complete_gather hc]
  read c d hc z c₁ d₁ input room hz hne hroom hpre := by
    obtain rfl := complete_gather hc
    exact reads_gather (inflated_gather hz) hne hroom hpre

/-! The same codec with a reader that takes any bytes and tells an error from a want of input. -/

def checked (n : ℕ) : Zlib UInt8 Gather Expect :=
  { gather n with
    inflate := fun z input room =>
      let r := unmark z input room
      ⟨if r.2.2 = .nothing then .streamEnd
        else if r.1 = input.length ∨ r.2.1.length = room then .ok else .dataError,
        r.1, r.2.1, r.2.2⟩ }

/-- A whole stream. -/
def Marked (c : List UInt8) : Prop := ∃ d, c = mark d ++ [0]

theorem inflated_checked {z : Expect} {c d : List UInt8} (h : Inflated (checked n) z c d) :
    z.Stands c d := by
  induction h with
  | init => rfl
  | @read z c d input room _ ih => exact (unmark_stands z input room ih).1

/-- Nothing more is expected just behind a whole stream. -/
theorem Expect.Stands.nothing_iff {p : Expect} {c d : List UInt8} (h : p.Stands c d) :
    p = .nothing ↔ Marked c := by
  have h : c = mark d ++ p.since := h
  constructor
  · rintro rfl
    exact ⟨d, h⟩
  · rintro ⟨D, hD⟩
    rcases p with _ | _ | _
    · have hlen := congrArg List.length (h.symm.trans hD)
      simp only [List.length_append, length_mark, since, List.length_nil, List.length_singleton]
        at hlen
      omega
    · have hlast := congrArg List.getLast? (h.symm.trans hD)
      simp [since] at hlast
    · rfl

/-- What a reader expects can still make a whole stream. -/
theorem Expect.Stands.extend {p : Expect} {c d : List UInt8} (h : p.Stands c d) :
    ∃ t, Marked (c ++ t) := by
  have h : c = mark d ++ p.since := h
  rcases p with _ | _ | _
  · exact ⟨[0], d, by rw [h]; simp [since]⟩
  · exact ⟨[0, 0], d ++ [0], by rw [h]; simp [since]⟩
  · exact ⟨[], d, by rw [h]; simp [since]⟩

/-- A whole stream does not begin another one. -/
theorem Marked.eq_of_prefix {s c : List UInt8} (hs : Marked s) (hc : Marked c) (h : s <+: c) :
    s = c := by
  obtain ⟨d, rfl⟩ := hs
  obtain ⟨D, rfl⟩ := hc
  obtain ⟨D', rfl, ht⟩ := mark_prefix h
  rcases D' with _ | ⟨b, D'⟩
  · simp
  · simp at ht

/-- What there is to read is what a reader expects, as far as it goes. -/
def Expect.Meets : Expect → List UInt8 → Prop
  | .head, xs => ∃ D, xs <+: mark D ++ [0] ∨ mark D ++ [0] <+: xs
  | .byte, xs => ∃ b D, xs <+: b :: (mark D ++ [0]) ∨ b :: (mark D ++ [0]) <+: xs
  | .nothing, _ => True

theorem Expect.Stands.meets {p : Expect} {c d D xs : List UInt8} (h : p.Stands c d)
    (hc : c <+: mark D ++ [0]) (hxs : c ++ xs <+: mark D ++ [0] ∨ mark D ++ [0] <+: c ++ xs) :
    p.Meets xs := by
  obtain ⟨D', rfl, ht⟩ := h.rest (show c ++ [] <+: _ by rwa [List.append_nil])
  rw [show c = mark d ++ p.since from h, mark_append, List.append_assoc, List.append_assoc,
    List.prefix_append_right_inj, List.prefix_append_right_inj] at hxs
  rcases p with _ | _ | _
  · exact ⟨D', by simpa [since] using hxs⟩
  · rcases D' with _ | ⟨b, D'⟩
    · simp [since] at ht
    · exact ⟨b, D', by simpa [since] using hxs⟩
  · trivial

/-- A reader that meets what it expects stops for want of room or input, or at the end. -/
theorem unmark_meets : ∀ (p : Expect) (xs : List UInt8) (room : ℕ), p.Meets xs →
    (unmark p xs room).2.2 = .nothing ∨ (unmark p xs room).1 = xs.length ∨
      (unmark p xs room).2.1.length = room := by
  intro p xs room
  fun_induction unmark p xs room with
  | case1 xs room ih =>
    rintro ⟨D, hD⟩
    rcases D with _ | ⟨b, D⟩
    · simp at hD
    · exact (ih ⟨b, D, by simpa using hD⟩).imp_right (.imp_left (congrArg (· + 1)))
  | case2 => exact fun _ => .inl rfl
  | case3 b xs room h1 h0 =>
    rintro ⟨D, hD⟩
    rcases D with _ | ⟨a, D⟩
    · simp [h0, Ne.symm h0] at hD
    · simp [h1, Ne.symm h1] at hD
  | case4 b xs room ih =>
    rintro ⟨a, D, hD⟩
    have hD : xs <+: mark D ++ [0] ∨ mark D ++ [0] <+: xs := by
      simp only [List.cons_prefix_cons] at hD
      exact hD.imp And.right And.right
    exact (ih ⟨D, hD⟩).imp_right (.imp (congrArg (· + 1)) (congrArg (· + 1)))
  | case5 xs p room hhead hbyte =>
    intro h
    rcases p with _ | _ | _
    · rcases xs with _ | ⟨b, xs⟩
      · exact .inr (.inl rfl)
      · exact (hhead b xs rfl rfl).elim
    · rcases xs with _ | ⟨b, xs⟩
      · exact .inr (.inl rfl)
      · rcases room with _ | room
        · exact .inr (.inr rfl)
        · exact (hbyte b xs room rfl rfl rfl).elim
    · exact .inl rfl

theorem advances_checked {n : ℕ} {z : Expect} {c d input : List UInt8} {room : ℕ}
    (hz : z.Stands c d) : Advances Marked c input room ((checked n).inflate z input room) := by
  obtain ⟨hs, hle, -⟩ := unmark_stands z input room hz
  refine ⟨hle, ?_, ?_, ?_, ?_⟩
  · simp only [checked]
    split_ifs with h1 h2
    · exact fun h => nomatch h
    · exact fun _ => h2
    · exact fun h => nomatch h
  · rw [← show _ ↔ Marked (c ++ input.take ((checked n).inflate z input room).consumed) from
      hs.nothing_iff]
    simp only [checked]
    split_ifs with h1 h2 <;> simp [h1]
  · intro s hwhole _ hpre
    obtain ⟨t, ht⟩ := hs.extend
    have heq := hwhole.eq_of_prefix ht (hpre.trans (List.prefix_append _ _))
    refine hpre.eq_of_length (Nat.le_antisymm hpre.length_le ?_)
    rw [heq]
    exact (List.prefix_append _ _).length_le
  · rintro s ⟨D, rfl⟩ hc hxs
    have hstop := unmark_meets z input room (hz.meets hc hxs.symm)
    simp only [checked]
    split_ifs with h1 h2
    · exact .inr rfl
    · exact .inl rfl
    · exact absurd (hstop.resolve_left h1) h2

theorem decodes_checked (n : ℕ) : Decodes (checked n) Marked where
  not_whole_nil := by
    rintro ⟨d, hd⟩
    simp at hd
  bound n := by
    refine ⟨n, fun z c d hz hc => ?_⟩
    rw [show c = mark d ++ z.since from inflated_checked hz, List.length_append, length_mark] at hc
    omega
  advance z c d input room hz _ _ _ := advances_checked (inflated_checked hz)
  ended z c d input room hz hc := by
    obtain rfl := (inflated_checked hz).nothing_iff.2 hc
    have hend : unmark .nothing input room = (0, [], .nothing) := by
      unfold unmark
      rfl
    simp [checked, hend]

end Gather

end Codec
