import Mathlib.Algebra.GroupWithZero.Nat
import Mathlib.Data.List.Basic
import Mathlib.Tactic.SplitIfs

/-!
# Runs of a transition system

A system is what each action makes of a state, if it can be taken there. A run takes its actions
one after another, each in a state that a guard allows; `Run.inv` is the induction behind every
invariant, and `exec_run` and `execIf_run` turn an evaluated sequence of actions into a run.
-/

namespace Machine

variable {σ α : Type*} (step : σ → α → Option σ)

/-- `Run step P s as t`: the actions `as` lead from `s` to `t`, each taken where `P` allows it. -/
inductive Run (P : σ → α → Prop) : σ → List α → σ → Prop
  | nil (s : σ) : Run P s [] s
  | cons {s t u : σ} {a : α} {as : List α} :
      P s a → step s a = some t → Run P t as u → Run P s (a :: as) u

/-- The guard that allows every action. -/
def Free : σ → α → Prop := fun _ _ => True

/-- The actions taken one after another, if each can be. -/
def exec (s : σ) : List α → Option σ
  | [] => some s
  | a :: as => (step s a).bind fun t => exec t as

/-- The same, where each action must also be one that the guard allows. -/
def execIf (P : σ → α → Prop) [∀ s a, Decidable (P s a)] (s : σ) : List α → Option σ
  | [] => some s
  | a :: as => if P s a then (step s a).bind fun t => execIf P t as else none

/-- How many of the actions, taken one after another, `p` picks. -/
def tally (p : σ → α → Bool) (s : σ) : List α → ℕ
  | [] => 0
  | a :: as => (p s a).toNat + ((step s a).map fun t => tally p t as).getD 0

variable {step} {P Q : σ → α → Prop} {s t : σ} {as : List α}

theorem Run.mono (hPQ : ∀ s a, P s a → Q s a) (h : Run step P s as t) : Run step Q s as t := by
  induction h with
  | nil => exact .nil _
  | cons hp hs _ ih => exact .cons (hPQ _ _ hp) hs ih

theorem Run.append {u : σ} {bs : List α} (h : Run step P s as t) (h' : Run step P t bs u) :
    Run step P s (as ++ bs) u := by
  induction h with
  | nil => exact h'
  | cons hp hs _ ih => exact .cons hp hs (ih h')

/-- What holds at the start and is kept by every step the guard allows holds at the end. -/
theorem Run.inv {I : σ → Prop} (hI : ∀ s a t, I s → P s a → step s a = some t → I t)
    (h : Run step P s as t) (hs : I s) : I t := by
  induction h with
  | nil => exact hs
  | cons hp hst _ ih => exact ih (hI _ _ _ hs hp hst)

/-- A property that a step keeps just where a guard allows it holds at the end of just those runs
that the guard allows. -/
theorem Run.guard_iff {I J : σ → Prop} (hI : ∀ s a t, I s → step s a = some t → I t)
    (hJ : ∀ s a t, I s → step s a = some t → (J t ↔ J s ∧ P s a))
    (h : Run step Free s as t) (hi : I s) : J t ↔ J s ∧ Run step P s as t := by
  induction h with
  | nil => exact ⟨fun h => ⟨h, .nil _⟩, fun h => h.1⟩
  | @cons s u t a as _ hst _ ih =>
    rw [ih (hI _ _ _ hi hst), hJ _ _ _ hi hst]
    constructor
    · exact fun h => ⟨h.1.1, .cons h.1.2 hst h.2⟩
    · rintro ⟨hs, hr⟩
      cases hr with
      | cons hp hst' hr =>
        rw [hst] at hst'
        cases hst'
        exact ⟨⟨hs, hp⟩, hr⟩

/-- A property that a step keeps just where a guard allows it holds after every part of just those
runs that the guard allows. -/
theorem Run.guard_all_iff {I J : σ → Prop} (hI : ∀ s a t, I s → step s a = some t → I t)
    (hJ : ∀ s a t, I s → J s → step s a = some t → (J t ↔ P s a))
    (h : Run step Free s as t) (hi : I s) (hj : J s) :
    (∀ pre post u, as = pre ++ post → Run step Free s pre u → J u) ↔ Run step P s as t := by
  induction h with
  | nil =>
    refine ⟨fun _ => .nil _, fun _ pre post u he hu => ?_⟩
    obtain ⟨rfl, -⟩ := List.append_eq_nil_iff.1 he.symm
    cases hu
    exact hj
  | @cons s u t a as _ hst _ ih =>
    constructor
    · intro hall
      have hu : J u := hall [a] as u rfl (.cons trivial hst (.nil u))
      refine .cons ((hJ _ _ _ hi hj hst).1 hu) hst ((ih (hI _ _ _ hi hst) hu).1 ?_)
      intro pre post v he hv
      exact hall (a :: pre) post v (by rw [he]; rfl) (.cons trivial hst hv)
    · intro hr pre post v he hv
      cases hr with
      | cons hp hst' hr =>
        rw [hst] at hst'
        cases hst'
        have hu : J u := (hJ _ _ _ hi hj hst).2 hp
        cases hv with
        | nil => exact hj
        | cons _ hst'' hv =>
          simp only [List.cons_append, List.cons.injEq] at he
          obtain ⟨rfl, he⟩ := he
          rw [hst] at hst''
          cases hst''
          exact (ih (hI _ _ _ hi hst) hu).2 hr _ post v he hv

/-- What is kept of a state and what the actions so far have added to a list. -/
theorem Run.inv_flatMap {β : Type*} {I : σ → List β → Prop} (f : α → List β)
    (hI : ∀ s l a t, I s l → P s a → step s a = some t → I t (l ++ f a))
    (h : Run step P s as t) : ∀ {l}, I s l → I t (l ++ as.flatMap f) := by
  induction h with
  | nil =>
    intro l hl
    rwa [List.flatMap_nil, List.append_nil]
  | cons hp hst _ ih =>
    intro l hl
    rw [List.flatMap_cons, ← List.append_assoc]
    exact ih (hI _ _ _ _ hl hp hst)

/-- Where an action that `p` picks takes one off a potential, and every action adds no more than
its cost to it, no more are picked than the actions cost. -/
theorem Run.tally_le {I : σ → Prop} {p : σ → α → Bool} (potential : σ → ℕ) (cost : α → ℕ)
    (hI : ∀ s a t, I s → P s a → step s a = some t →
      I t ∧ potential t + (p s a).toNat ≤ potential s + cost a)
    (h : Run step P s as t) (hs : I s) :
    potential t + tally step p s as ≤ potential s + (as.map cost).sum := by
  induction h with
  | nil => exact Nat.le_refl _
  | cons hp hst _ ih =>
    obtain ⟨ht, hle⟩ := hI _ _ _ hs hp hst
    have := ih ht
    simp only [tally, hst, Option.map_some, Option.getD_some, List.map_cons, List.sum_cons]
    omega

/-- A property that an invariant implies is lost at the first step that the guard forbids, where
the invariant is kept by the steps it allows. -/
theorem Run.holds_iff {I J : σ → Prop} (hJ : ∀ s, I s → J s)
    (hI : ∀ s a t, I s → P s a → step s a = some t → I t)
    (hlost : ∀ s a t, I s → step s a = some t → J t → P s a)
    (h : Run step Free s as t) (hi : I s) :
    (∀ pre post u, as = pre ++ post → Run step Free s pre u → J u) ↔ Run step P s as t := by
  induction h with
  | nil =>
    refine ⟨fun _ => .nil _, fun _ pre post u he hu => ?_⟩
    obtain ⟨rfl, -⟩ := List.append_eq_nil_iff.1 he.symm
    cases hu
    exact hJ _ hi
  | @cons s u t a as _ hst _ ih =>
    constructor
    · intro hall
      have hp := hlost _ _ _ hi hst (hall [a] as u rfl (.cons trivial hst (.nil u)))
      refine .cons hp hst ((ih (hI _ _ _ hi hp hst)).1 fun pre post v he hv => ?_)
      exact hall (a :: pre) post v (by rw [he]; rfl) (.cons trivial hst hv)
    · intro hr pre post v he hv
      cases hr with
      | cons hp hst' hr =>
        rw [hst] at hst'
        cases hst'
        cases hv with
        | nil => exact hJ _ hi
        | cons _ hst'' hv =>
          simp only [List.cons_append, List.cons.injEq] at he
          obtain ⟨rfl, he⟩ := he
          rw [hst] at hst''
          cases hst''
          exact (ih (hI _ _ _ hi hp hst)).2 hr _ post v he hv

/-- The system with a log of the actions taken. -/
def logged (step : σ → α → Option σ) (s : σ × List α) (a : α) : Option (σ × List α) :=
  (step s.1 a).map (·, s.2 ++ [a])

theorem Run.logged (h : Run step Free s as t) :
    ∀ l, Run (logged step) Free (s, l) as (t, l ++ as) := by
  induction h with
  | nil =>
    intro l
    rw [List.append_nil]
    exact .nil _
  | @cons s u t a as _ hst _ ih =>
    intro l
    have hlog : Machine.logged step (s, l) a = some (u, l ++ [a]) := by
      unfold Machine.logged
      rw [hst]
      rfl
    refine .cons trivial hlog ?_
    have := ih (l ++ [a])
    rwa [List.append_assoc] at this

theorem exec_run : ∀ {as : List α} {s t : σ}, exec step s as = some t → Run step Free s as t
  | [], s, t, h => by
    simp only [exec, Option.some.injEq] at h
    subst h
    exact .nil s
  | a :: as, s, t, h => by
    simp only [exec, Option.bind_eq_some_iff] at h
    obtain ⟨u, hu, h⟩ := h
    exact .cons trivial hu (exec_run h)

theorem execIf_run [∀ s a, Decidable (P s a)] : ∀ {as : List α} {s t : σ},
    execIf step P s as = some t → Run step P s as t
  | [], s, t, h => by
    simp only [execIf, Option.some.injEq] at h
    subst h
    exact .nil s
  | a :: as, s, t, h => by
    unfold execIf at h
    split_ifs at h with hp
    obtain ⟨u, hu, h⟩ := Option.bind_eq_some_iff.1 h
    exact .cons hp hu (execIf_run h)

end Machine
