import Kumofs.Lib.Newest
import Mathlib.Logic.Function.Basic

/-!
# Two parties that mirror a value

Each party holds a stamped value and sends what it changes it to. A value that arrives is taken if
it is not older than the one held; a blank value is never taken, and always replaced. When nothing
is on its way any more the two hold the same value, provided that a party only changes to values
that are not older, not blank, and not another value's stamp.
-/

namespace Mirror

open Newest

variable {ε τ : Type*}

/-- What the two parties hold, and what is on its way to each. -/
structure Pair (ε : Type*) where
  held : Bool → ε
  queue : Bool → List ε

namespace Pair

/-- A value held or on its way. -/
def InPlay (p : Pair ε) (x : ε) : Prop := ∃ i, x = p.held i ∨ x ∈ p.queue i

/-- A party changes to a value and sends it. -/
def change (p : Pair ε) (i : Bool) (v : ε) : Pair ε :=
  ⟨Function.update p.held i v, Function.update p.queue (!i) (p.queue (!i) ++ [v])⟩

/-- One change after another. -/
def changes (p : Pair ε) (i : Bool) (vs : List ε) : Pair ε := vs.foldl (change · i) p

/-- A party holds `v` now, and `q` is what is left on its way to it. -/
def receive (p : Pair ε) (i : Bool) (v : ε) (q : List ε) : Pair ε :=
  ⟨Function.update p.held i v, Function.update p.queue i q⟩

theorem not_ne (i : Bool) : (!i) ≠ i := by cases i <;> decide

theorem eq_or_eq_not (i j : Bool) : j = i ∨ j = !i := by cases i <;> cases j <;> decide

variable {p : Pair ε} {i : Bool} {v x : ε} {q : List ε}

@[simp] theorem change_held : (p.change i v).held i = v := Function.update_self ..

@[simp] theorem change_held_not : (p.change i v).held (!i) = p.held (!i) :=
  Function.update_of_ne (not_ne i) ..

@[simp] theorem change_queue : (p.change i v).queue i = p.queue i :=
  Function.update_of_ne (not_ne i).symm ..

@[simp] theorem change_queue_not : (p.change i v).queue (!i) = p.queue (!i) ++ [v] :=
  Function.update_self ..

@[simp] theorem receive_held : (p.receive i v q).held i = v := Function.update_self ..

@[simp] theorem receive_held_not : (p.receive i v q).held (!i) = p.held (!i) :=
  Function.update_of_ne (not_ne i) ..

@[simp] theorem receive_queue : (p.receive i v q).queue i = q := Function.update_self ..

@[simp] theorem receive_queue_not : (p.receive i v q).queue (!i) = p.queue (!i) :=
  Function.update_of_ne (not_ne i) ..

theorem inPlay_held (p : Pair ε) (i : Bool) : p.InPlay (p.held i) := ⟨i, .inl rfl⟩

theorem inPlay_queue (h : x ∈ p.queue i) : p.InPlay x := ⟨i, .inr h⟩

theorem InPlay.of_change (h : (p.change i v).InPlay x) : x = v ∨ p.InPlay x := by
  obtain ⟨j, hj⟩ := h
  rcases eq_or_eq_not i j with rfl | rfl
  · rw [change_held, change_queue] at hj
    exact hj.imp_right inPlay_queue
  · rw [change_held_not, change_queue_not, List.mem_append, List.mem_singleton] at hj
    rcases hj with rfl | hj | rfl
    · exact .inr (inPlay_held p _)
    · exact .inr (inPlay_queue hj)
    · exact .inl rfl

theorem changes_held : ∀ (vs : List ε) (p : Pair ε),
    (p.changes i vs).held i = vs.getLastD (p.held i)
  | [], _ => rfl
  | v :: vs, p => by
    show ((p.change i v).changes i vs).held i = _
    rw [changes_held vs, change_held, List.getLastD_cons]

theorem changes_held_not : ∀ (vs : List ε) (p : Pair ε),
    (p.changes i vs).held (!i) = p.held (!i)
  | [], _ => rfl
  | v :: vs, p => by
    show ((p.change i v).changes i vs).held (!i) = _
    rw [changes_held_not vs, change_held_not]

theorem changes_queue : ∀ (vs : List ε) (p : Pair ε), (p.changes i vs).queue i = p.queue i
  | [], _ => rfl
  | v :: vs, p => by
    show ((p.change i v).changes i vs).queue i = _
    rw [changes_queue vs, change_queue]

theorem changes_queue_not : ∀ (vs : List ε) (p : Pair ε),
    (p.changes i vs).queue (!i) = p.queue (!i) ++ vs
  | [], p => (List.append_nil _).symm
  | v :: vs, p => by
    show ((p.change i v).changes i vs).queue (!i) = _
    rw [changes_queue_not vs, change_queue_not, List.append_assoc]
    rfl

theorem ext_of (i : Bool) {p q : Pair ε} (h₁ : p.held i = q.held i)
    (h₂ : p.held (!i) = q.held (!i)) (h₃ : p.queue i = q.queue i)
    (h₄ : p.queue (!i) = q.queue (!i)) : p = q := by
  have hh : p.held = q.held := funext fun j => by
    rcases eq_or_eq_not i j with rfl | rfl
    · exact h₁
    · exact h₂
  have hq : p.queue = q.queue := funext fun j => by
    rcases eq_or_eq_not i j with rfl | rfl
    · exact h₃
    · exact h₄
  cases p
  cases q
  cases hh
  cases hq
  rfl

end Pair

variable [LT τ] (stamp : ε → τ) (blank : ε → Bool)

/-- What a party that holds `h` holds when `x` has arrived. -/
def take [∀ x y : τ, Decidable (x < y)] (h x : ε) : ε :=
  if !blank x && (blank h || ¬ stamp x < stamp h) then x else h

/-- The value a change may be to. -/
structure Allowed (C : Set τ) (v₀ : ε) (p : Pair ε) (i : Bool) (v : ε) : Prop where
  stamped : stamp v ∈ C
  notOlder : ¬ stamp v < stamp (p.held i)
  own : ∀ x, p.InPlay x → stamp x = stamp v → x = v
  notBlank : blank v → v = v₀

/-- Each value of a list may be changed to when those before it have been. -/
def AllowedAll (C : Set τ) (v₀ : ε) (i : Bool) : Pair ε → List ε → Prop
  | _, [] => True
  | p, v :: vs => Allowed stamp blank C v₀ p i v ∧ AllowedAll C v₀ i (p.change i v) vs

/-- What is held is on its way or known, and what is on its way is not newer than what its sender
holds. -/
structure Inv (C : Set τ) (v₀ : ε) (p : Pair ε) : Prop where
  stamped : ∀ x, p.InPlay x → stamp x ∈ C
  own : ∀ x y, p.InPlay x → p.InPlay y → stamp x = stamp y → x = y
  notBlank : ∀ x, p.InPlay x → blank x → x = v₀
  first : ∀ x, p.InPlay x → ¬ stamp x < stamp v₀
  sent : ∀ i, ∀ x ∈ p.queue (!i), ¬ stamp (p.held i) < stamp x
  known : ∀ i, ¬ stamp (p.held (!i)) < stamp (p.held i) ∨
    ∃ x ∈ p.queue (!i), ¬ stamp x < stamp (p.held i)

variable {stamp blank} {C : Set τ} {v₀ : ε} {p : Pair ε} {i : Bool} {v : ε}

theorem not_lt_trans (hC : StrictTotal C) {x y z : τ} (hx : x ∈ C) (hy : y ∈ C) (hz : z ∈ C)
    (h : ¬ y < x) (h' : ¬ z < y) : ¬ z < x := by
  intro hzx
  rcases hC.total _ hx _ hy with rfl | hlt | hlt
  · exact h' hzx
  · exact h' (hC.trans _ hz _ hx _ hy hzx hlt)
  · exact h hlt

theorem Inv.init (hC : StrictTotal C) (h₀ : stamp v₀ ∈ C) :
    Inv stamp blank C v₀ ⟨fun _ => v₀, fun _ => []⟩ := by
  have hp : ∀ x, Pair.InPlay ⟨fun _ => v₀, fun _ => []⟩ x → x = v₀ := by
    rintro x ⟨i, rfl | h⟩
    · rfl
    · exact absurd h List.not_mem_nil
  refine ⟨?_, ?_, fun x hx _ => hp x hx, ?_, fun i x hx => absurd hx List.not_mem_nil,
    fun i => .inl (hC.irrefl _ h₀)⟩
  · intro x hx
    rw [hp x hx]
    exact h₀
  · intro x y hx hy _
    rw [hp x hx, hp y hy]
  · intro x hx
    rw [hp x hx]
    exact hC.irrefl _ h₀

/-- To send again what is held is no change. -/
theorem Inv.allowed_held (hC : StrictTotal C) (h : Inv stamp blank C v₀ p) (i : Bool) :
    Allowed stamp blank C v₀ p i (p.held i) :=
  have hi := Pair.inPlay_held p i
  ⟨h.stamped _ hi, hC.irrefl _ (h.stamped _ hi), fun _ hx => h.own _ _ hx hi, h.notBlank _ hi⟩

theorem Inv.change (hC : StrictTotal C) (h₀ : stamp v₀ ∈ C) (h : Inv stamp blank C v₀ p)
    (hv : Allowed stamp blank C v₀ p i v) : Inv stamp blank C v₀ (p.change i v) := by
  have hst : ∀ x, p.InPlay x → stamp x ∈ C := h.stamped
  have hheld : stamp (p.held i) ∈ C := hst _ (Pair.inPlay_held p i)
  refine ⟨?_, ?_, ?_, ?_, ?_, ?_⟩
  · intro x hx
    rcases hx.of_change with rfl | hx
    · exact hv.stamped
    · exact hst x hx
  · intro x y hx hy hxy
    rcases hx.of_change with hx' | hx' <;> rcases hy.of_change with hy' | hy'
    · rw [hx', hy']
    · rw [hx', hv.own y hy' (by rw [← hxy, hx'])]
    · rw [hy', hv.own x hx' (by rw [hxy, hy'])]
    · exact h.own x y hx' hy' hxy
  · intro x hx
    rcases hx.of_change with rfl | hx
    · exact hv.notBlank
    · exact h.notBlank x hx
  · intro x hx
    rcases hx.of_change with rfl | hx
    · exact not_lt_trans hC h₀ hheld hv.stamped (h.first _ (Pair.inPlay_held p i)) hv.notOlder
    · exact h.first x hx
  · intro j x hx
    rcases Pair.eq_or_eq_not i j with rfl | rfl
    · rw [Pair.change_held]
      rw [Pair.change_queue_not, List.mem_append, List.mem_singleton] at hx
      rcases hx with hx | rfl
      · exact not_lt_trans hC (hst x (Pair.inPlay_queue hx)) hheld hv.stamped
          (h.sent j x hx) hv.notOlder
      · exact hC.irrefl _ hv.stamped
    · rw [Bool.not_not, Pair.change_queue] at hx
      rw [Pair.change_held_not]
      exact h.sent (!i) x (by rwa [Bool.not_not])
  · intro j
    rcases Pair.eq_or_eq_not i j with rfl | rfl
    · right
      rw [Pair.change_held, Pair.change_queue_not]
      exact ⟨v, by simp, hC.irrefl _ hv.stamped⟩
    · rw [Bool.not_not, Pair.change_held, Pair.change_held_not, Pair.change_queue]
      have hk := h.known (!i)
      rw [Bool.not_not] at hk
      refine hk.imp_left fun hk => ?_
      exact not_lt_trans hC (hst _ (Pair.inPlay_held p _)) hheld hv.stamped hk hv.notOlder

theorem Inv.changes (hC : StrictTotal C) (h₀ : stamp v₀ ∈ C) : ∀ {vs : List ε} {p : Pair ε},
    Inv stamp blank C v₀ p → AllowedAll stamp blank C v₀ i p vs →
      Inv stamp blank C v₀ (p.changes i vs)
  | [], _, h, _ => h
  | _ :: _, _, h, hv => (h.change hC h₀ hv.1).changes hC h₀ hv.2

/-- The value that arrives is taken, or what is held is not older and stays. -/
theorem take_cases [∀ x y : τ, Decidable (x < y)] (hC : StrictTotal C)
    (h : Inv stamp blank C v₀ p) {x : ε} (hx : p.InPlay x) :
    take stamp blank (p.held i) x = x ∧ ¬ stamp x < stamp (p.held i) ∨
      take stamp blank (p.held i) x = p.held i ∧ ¬ stamp (p.held i) < stamp x := by
  have hi := Pair.inPlay_held p i
  unfold take
  split_ifs with ht
  · refine .inl ⟨rfl, ?_⟩
    simp only [Bool.and_eq_true, Bool.not_eq_true', Bool.or_eq_true, decide_eq_true_eq] at ht
    rcases ht.2 with hb | hlt
    · rw [h.notBlank _ hi hb]
      exact h.first x hx
    · exact hlt
  · refine .inr ⟨rfl, ?_⟩
    simp only [Bool.and_eq_true, Bool.not_eq_true', Bool.or_eq_true, decide_eq_true_eq, not_and_or,
      not_or, not_not, Bool.not_eq_false] at ht
    rcases ht with hb | ⟨-, hlt⟩
    · rw [h.notBlank x hx hb]
      exact h.first _ hi
    · exact fun hlt' => hC.irrefl _ (h.stamped x hx)
        (hC.trans _ (h.stamped x hx) _ (h.stamped _ hi) _ (h.stamped x hx) hlt hlt')

theorem Inv.receive [∀ x y : τ, Decidable (x < y)] (hC : StrictTotal C)
    (h : Inv stamp blank C v₀ p) {x : ε} {q : List ε} (hx : x ∈ p.queue i)
    (hq : ∀ y ∈ q, y ∈ p.queue i) (hq' : ∀ y ∈ p.queue i, y = x ∨ y ∈ q) :
    Inv stamp blank C v₀ (p.receive i (take stamp blank (p.held i) x) q) := by
  have hxp : p.InPlay x := Pair.inPlay_queue hx
  have hi := Pair.inPlay_held p i
  have hni := Pair.inPlay_held p (!i)
  have hcases := take_cases (i := i) hC h hxp
  generalize hv : take stamp blank (p.held i) x = v at hcases
  have hvp : p.InPlay v := by
    rcases hcases with ⟨rfl, -⟩ | ⟨rfl, -⟩
    · exact hxp
    · exact hi
  have hold : ∀ y, (p.receive i v q).InPlay y → p.InPlay y := by
    rintro y ⟨j, hj⟩
    rcases Pair.eq_or_eq_not i j with rfl | rfl
    · rw [Pair.receive_held, Pair.receive_queue] at hj
      rcases hj with rfl | hj
      · exact hvp
      · exact Pair.inPlay_queue (hq y hj)
    · rw [Pair.receive_held_not, Pair.receive_queue_not] at hj
      exact ⟨_, hj⟩
  have hst := h.stamped
  -- what is held now is not older than before, nor older than what arrived
  have hge : ¬ stamp v < stamp (p.held i) ∧ ¬ stamp v < stamp x := by
    rcases hcases with ⟨rfl, hlt⟩ | ⟨rfl, hlt⟩
    · exact ⟨hlt, hC.irrefl _ (hst _ hxp)⟩
    · exact ⟨hC.irrefl _ (hst _ hi), hlt⟩
  refine ⟨fun y hy => hst y (hold y hy), fun y z hy hz => h.own y z (hold y hy) (hold z hz),
    fun y hy => h.notBlank y (hold y hy), fun y hy => h.first y (hold y hy), ?_, ?_⟩
  · intro j y hy
    rcases Pair.eq_or_eq_not i j with rfl | rfl
    · rw [Pair.receive_queue_not] at hy
      rw [Pair.receive_held]
      exact not_lt_trans hC (hst y (Pair.inPlay_queue hy)) (hst _ hi) (hst _ hvp) (h.sent j y hy)
        hge.1
    · rw [Bool.not_not, Pair.receive_queue] at hy
      rw [Pair.receive_held_not]
      exact h.sent (!i) y (by rw [Bool.not_not]; exact hq y hy)
  · intro j
    rcases Pair.eq_or_eq_not i j with rfl | rfl
    · rw [Pair.receive_held, Pair.receive_held_not, Pair.receive_queue_not]
      rcases hcases with ⟨rfl, -⟩ | ⟨rfl, -⟩
      · exact .inl (h.sent (!j) v (by rwa [Bool.not_not]))
      · exact h.known j
    · rw [Bool.not_not, Pair.receive_held, Pair.receive_held_not, Pair.receive_queue]
      have hk := h.known (!i)
      rw [Bool.not_not] at hk
      rcases hk with hk | ⟨y, hy, hk⟩
      · exact .inl (not_lt_trans hC (hst _ hni) (hst _ hi) (hst _ hvp) hk hge.1)
      · rcases hq' y hy with rfl | hy
        · exact .inl (not_lt_trans hC (hst _ hni) (hst _ hxp) (hst _ hvp) hk hge.2)
        · exact .inr ⟨y, hy, hk⟩

/-- With nothing on its way the two hold the same value. -/
theorem Inv.agree (hC : StrictTotal C) (h : Inv stamp blank C v₀ p) (hq : ∀ i, p.queue i = []) :
    p.held false = p.held true := by
  have hk : ∀ i, ¬ stamp (p.held (!i)) < stamp (p.held i) := by
    intro i
    rcases h.known i with hk | ⟨x, hx, -⟩
    · exact hk
    · rw [hq] at hx
      exact absurd hx List.not_mem_nil
  have hf := Pair.inPlay_held p false
  have ht := Pair.inPlay_held p true
  refine h.own _ _ hf ht ?_
  rcases hC.total _ (h.stamped _ hf) _ (h.stamped _ ht) with heq | hlt | hlt
  · exact heq
  · exact absurd hlt (hk true)
  · exact absurd hlt (hk false)

end Mirror
