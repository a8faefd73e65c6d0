import Mathlib.Algebra.GroupWithZero.Nat
import Mathlib.Data.List.Basic

/-!
# Counting in a list that changes at one place

What the number of elements with a property becomes when the element at an index goes or is
replaced.
-/

namespace Counting

variable {α : Type*} {p : α → Bool} {x y : α}

theorem countP_eraseIdx : ∀ {l : List α} {k : ℕ}, l[k]? = some x →
    (l.eraseIdx k).countP p + (p x).toNat = l.countP p
  | [], k, h => by simp at h
  | a :: l, 0, h => by
    simp only [List.getElem?_cons_zero, Option.some.injEq] at h
    subst h
    cases hp : p a <;> simp [hp]
  | a :: l, k + 1, h => by
    have ih := countP_eraseIdx (l := l) (k := k) (by simpa using h)
    simp only [List.eraseIdx_cons_succ, List.countP_cons]
    omega

theorem countP_set : ∀ {l : List α} {k : ℕ}, l[k]? = some x →
    (l.set k y).countP p + (p x).toNat = l.countP p + (p y).toNat
  | [], k, h => by simp at h
  | a :: l, 0, h => by
    simp only [List.getElem?_cons_zero, Option.some.injEq] at h
    subst h
    simp only [List.set_cons_zero, List.countP_cons]
    cases p a <;> cases p y <;> simp
  | a :: l, k + 1, h => by
    have ih := countP_set (l := l) (k := k) (by simpa using h)
    simp only [List.set_cons_succ, List.countP_cons]
    omega

theorem sum_map_set (w : α → ℕ) : ∀ {l : List α} {k : ℕ}, l[k]? = some x →
    ((l.set k y).map w).sum + w x = (l.map w).sum + w y
  | [], k, h => by simp at h
  | a :: l, 0, h => by
    simp only [List.getElem?_cons_zero, Option.some.injEq] at h
    subst h
    simp only [List.set_cons_zero, List.map_cons, List.sum_cons]
    omega
  | a :: l, k + 1, h => by
    have ih := sum_map_set w (l := l) (k := k) (by simpa using h)
    simp only [List.set_cons_succ, List.map_cons, List.sum_cons]
    omega

theorem countP_erase [DecidableEq α] : ∀ {l : List α}, x ∈ l →
    (l.erase x).countP p + (p x).toNat = l.countP p
  | a :: l, h => by
    by_cases ha : a = x
    · subst ha
      cases hp : p a <;> simp [hp]
    · have ih := countP_erase (List.mem_of_ne_of_mem (Ne.symm ha) h)
      rw [List.erase_cons_tail (by simpa using ha), List.countP_cons, List.countP_cons]
      omega

variable {β : Type*} {q : β → Bool} {f : α → List β}

theorem countP_flatMap_set : ∀ {l : List α} {k : ℕ}, l[k]? = some x →
    ((l.set k y).flatMap f).countP q + (f x).countP q = (l.flatMap f).countP q + (f y).countP q
  | [], k, h => by simp at h
  | a :: l, 0, h => by
    simp only [List.getElem?_cons_zero, Option.some.injEq] at h
    subst h
    simp only [List.set_cons_zero, List.flatMap_cons, List.countP_append]
    omega
  | a :: l, k + 1, h => by
    have ih := countP_flatMap_set (l := l) (k := k) (by simpa using h)
    simp only [List.set_cons_succ, List.flatMap_cons, List.countP_append]
    omega

theorem countP_flatMap_eraseIdx : ∀ {l : List α} {k : ℕ}, l[k]? = some x →
    ((l.eraseIdx k).flatMap f).countP q + (f x).countP q = (l.flatMap f).countP q
  | [], k, h => by simp at h
  | a :: l, 0, h => by
    simp only [List.getElem?_cons_zero, Option.some.injEq] at h
    subst h
    simp only [List.eraseIdx_cons_zero, List.flatMap_cons, List.countP_append]
    omega
  | a :: l, k + 1, h => by
    have ih := countP_flatMap_eraseIdx (l := l) (k := k) (by simpa using h)
    simp only [List.eraseIdx_cons_succ, List.flatMap_cons, List.countP_append]
    omega

theorem countP_pos_of_mem {l : List α} (h : x ∈ l) (hp : p x = true) : 0 < l.countP p :=
  List.countP_pos_iff.2 ⟨x, h, hp⟩

/-- No two elements have a property that at most one has. -/
theorem index_unique {l : List α} {i j : ℕ} (hl : l.countP p ≤ 1) (hi : l[i]? = some x)
    (hj : l[j]? = some y) (hx : p x = true) (hy : p y = true) : i = j := by
  by_contra hne
  have hcount := countP_eraseIdx (p := p) hi
  rw [hx, Bool.toNat_true] at hcount
  have hmem : y ∈ l.eraseIdx i := List.mem_eraseIdx_iff_getElem?.2 ⟨j, Ne.symm hne, hj⟩
  have := countP_pos_of_mem hmem hy
  omega

variable {r : α → Bool}

theorem countP_add_le (hpr : ∀ x, p x = true → r x = false) :
    ∀ l : List α, l.countP p + l.countP r ≤ l.length
  | [] => Nat.le_refl 0
  | a :: l => by
    have ih := countP_add_le hpr l
    have ha := hpr a
    simp only [List.countP_cons, List.length_cons]
    cases hp : p a
    · split_ifs <;> simp_all <;> omega
    · simp only [ha hp]
      simp
      omega

/-- Where two properties leave elements over, one has neither. -/
theorem exists_of_countP_lt {l : List α} (h : l.countP p + l.countP r < l.length) :
    ∃ (k : ℕ) (x : α), l[k]? = some x ∧ p x = false ∧ r x = false := by
  by_contra! hno
  have hall : ∀ x ∈ l, p x = true ∨ r x = true := by
    intro x hx
    obtain ⟨k, hk⟩ := List.mem_iff_getElem?.1 hx
    cases hp : p x
    · exact .inr (by simpa using hno k x hk hp)
    · exact .inl rfl
  have hle : l.length ≤ l.countP p + l.countP r := by
    clear h hno
    induction l with
    | nil => exact Nat.zero_le _
    | cons a l ih =>
      have := ih fun x hx => hall x (List.mem_cons_of_mem a hx)
      simp only [List.countP_cons, List.length_cons]
      obtain ha | ha := hall a List.mem_cons_self
      · simp only [ha, if_true]
        omega
      · simp only [ha, if_true]
        omega
  omega

/-- Where a property leaves two elements over, they are at two indices. -/
theorem exists_two_of_countP {l : List α} (h : l.countP p + 2 ≤ l.length) :
    ∃ (j k : ℕ) (x y : α), j ≠ k ∧ l[j]? = some x ∧ l[k]? = some y ∧ p x = false ∧ p y = false := by
  have hnone : ∀ l : List α, l.countP (fun _ => false) = 0 := fun l => by simp
  obtain ⟨j, x, hj, hx, -⟩ := exists_of_countP_lt (p := p) (r := fun _ => false) (l := l)
    (by rw [hnone]; omega)
  have hcount := countP_eraseIdx (p := p) hj
  have hlen := List.length_eraseIdx_add_one (List.getElem?_eq_some_iff.1 hj).1
  rw [hx, Bool.toNat_false] at hcount
  obtain ⟨i, y, hi, hy, -⟩ := exists_of_countP_lt (p := p) (r := fun _ => false)
    (l := l.eraseIdx j) (by rw [hnone]; omega)
  obtain ⟨k, hkj, hk⟩ := List.mem_eraseIdx_iff_getElem?.1 (List.mem_of_getElem? hi)
  exact ⟨j, k, x, y, Ne.symm hkj, hj, hk, hx, hy⟩

end Counting
