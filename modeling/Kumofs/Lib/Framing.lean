import Mathlib.Data.List.Basic
import Mathlib.Tactic.SplitIfs

/-!
# Cutting a stream into frames

A rule looks at what there is of a stream and tells whether it starts with a frame. Where more of the
stream does not change what the rule has told, it does not matter in which parts the stream comes:
the frames cut from the parts are those cut from the whole.
-/

namespace Framing

variable {α : Type*}

/-- What a rule tells of the stream there is. -/
inductive Cut
  | more
  /-- There is no frame, and there will be none. -/
  | reject
  /-- A frame of that length, and none after it. -/
  | last (n : ℕ)
  /-- A frame of that length. -/
  | frame (n : ℕ)
  deriving DecidableEq

/-- The frames that were cut, and what is left of the stream; there is none once it has ended. -/
structure Parsed (α : Type*) where
  frames : List (List α)
  rest : Option (List α)
  deriving DecidableEq

def Parsed.after (f : List (List α)) (p : Parsed α) : Parsed α := ⟨f ++ p.frames, p.rest⟩

variable (cut : List α → Cut)

/-- The frames of a stream. A frame that is empty or longer than the stream is none. -/
def parse (s : List α) : Parsed α :=
  match cut s with
  | .more => ⟨[], some s⟩
  | .reject => ⟨[], none⟩
  | .last n => ⟨[s.take n], none⟩
  | .frame n =>
    if _h : 0 < n ∧ n ≤ s.length then (parse (s.drop n)).after [s.take n] else ⟨[], some s⟩
  termination_by s.length
  decreasing_by
    rw [List.length_drop]
    omega

/-- More of the stream comes. -/
def Parsed.feed (p : Parsed α) (b : List α) : Parsed α :=
  match p.rest with
  | none => p
  | some s => (parse cut (s ++ b)).after p.frames

/-- What a rule has told stays, and its frames are there. -/
structure Stable : Prop where
  append : ∀ s b, cut s ≠ .more → cut (s ++ b) = cut s
  last : ∀ s n, cut s = .last n → n ≤ s.length
  frame : ∀ s n, cut s = .frame n → 0 < n ∧ n ≤ s.length

namespace Parsed

@[simp] theorem after_nil (p : Parsed α) : p.after [] = p := rfl

theorem after_after (f g : List (List α)) (p : Parsed α) :
    (p.after g).after f = p.after (f ++ g) := by
  simp [after, List.append_assoc]

theorem after_feed (f : List (List α)) (p : Parsed α) (b : List α) :
    (p.after f).feed cut b = (p.feed cut b).after f := by
  rcases p with ⟨frames, _ | s⟩
  · rfl
  · simp [feed, after, List.append_assoc]

end Parsed

variable {cut}

theorem parse_frame {s : List α} {n : ℕ} (hs : Stable cut) (h : cut s = .frame n) :
    parse cut s = (parse cut (s.drop n)).after [s.take n] := by
  rw [parse, h]
  simp only []
  rw [dif_pos (hs.frame s n h)]

/-- What is left of a stream does not start with a frame. -/
theorem cut_rest (hs : Stable cut) : ∀ (s : List α) {r : List α},
    (parse cut s).rest = some r → cut r = .more := by
  intro s
  induction s using parse.induct cut with
  | case1 s hm =>
    intro r hr
    rw [parse, hm] at hr
    cases hr
    exact hm
  | case2 s hm =>
    intro r hr
    rw [parse, hm] at hr
    cases hr
  | case3 s n hm =>
    intro r hr
    rw [parse, hm] at hr
    cases hr
  | case4 s n hm hn ih =>
    intro r hr
    rw [parse_frame hs hm] at hr
    exact ih hr
  | case5 s n hm hn => exact absurd (hs.frame s n hm) hn

theorem parse_of_more {s : List α} (h : cut s = .more) : parse cut s = ⟨[], some s⟩ := by
  rw [parse, h]

/-- A stream is cut as its first part, and then as what comes after that. -/
theorem parse_append (hs : Stable cut) (s b : List α) :
    parse cut (s ++ b) = (parse cut s).feed cut b := by
  induction s using parse.induct cut with
  | case1 s hm =>
    rw [parse_of_more hm]
    rfl
  | case2 s hm =>
    have happ : cut (s ++ b) = .reject := by rw [hs.append s b (by simp [hm]), hm]
    rw [parse, happ, parse, hm]
    rfl
  | case3 s n hm =>
    have happ : cut (s ++ b) = .last n := by rw [hs.append s b (by simp [hm]), hm]
    rw [parse, happ, parse, hm]
    simp only [Parsed.feed, List.take_append_of_le_length (hs.last s n hm)]
  | case4 s n hm hn ih =>
    have happ : cut (s ++ b) = .frame n := by rw [hs.append s b (by simp [hm]), hm]
    rw [parse_frame hs happ, parse_frame hs hm, Parsed.after_feed,
      List.drop_append_of_le_length hn.2, List.take_append_of_le_length hn.2, ih]
  | case5 s n hm hn => exact absurd (hs.frame s n hm) hn

end Framing
