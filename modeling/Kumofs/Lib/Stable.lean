import Mathlib.Data.List.Sort

/-!
# Stable sorting and what is taken out of a sorted list

`List.insertionSort` keeps the order of elements that the relation does not tell apart. So it
commutes with taking elements out (`filter_insertionSort`), and it makes no difference whether a
first part was sorted before the rest was appended (`insertionSort_append`). A list sorted by a
relation splits at the first element of an upward closed predicate into the rest and that
predicate's elements.
-/

namespace Stable

variable {α : Type*} {r : α → α → Prop} [DecidableRel r] {p : α → Bool} {a b : α}

theorem orderedInsert_of_forall {l : List α} (h : ∀ x ∈ l, r a x) :
    l.orderedInsert r a = a :: l := by
  cases l with
  | nil => rfl
  | cons x l => rw [List.orderedInsert_cons_of_le r l (h x List.mem_cons_self)]

theorem filter_orderedInsert [IsTrans α r] : ∀ {l : List α}, l.Pairwise r →
    (l.orderedInsert r a).filter p = if p a then (l.filter p).orderedInsert r a else l.filter p
  | [], _ => by cases hp : p a <;> simp [hp]
  | x :: l, h => by
    obtain ⟨hx, hl⟩ := List.pairwise_cons.1 h
    by_cases hax : r a x
    · have hall : ∀ y ∈ (x :: l).filter p, r a y := by
        intro y hy
        rcases List.mem_cons.1 (List.mem_of_mem_filter hy) with rfl | hy
        · exact hax
        · exact IsTrans.trans a x y hax (hx y hy)
      rw [List.orderedInsert_cons_of_le r l hax, List.filter_cons, orderedInsert_of_forall hall]
    · have ih := filter_orderedInsert hl
      rw [List.orderedInsert_of_not_le r l hax, List.filter_cons, List.filter_cons, ih]
      cases hpx : p x
      · simp
      · cases hpa : p a
        · simp
        · simp [hax]

/-- Taking elements out before sorting and after it is the same. -/
theorem filter_insertionSort [IsTrans α r] [Std.Total r] : ∀ l : List α,
    (l.insertionSort r).filter p = (l.filter p).insertionSort r
  | [] => rfl
  | a :: l => by
    rw [List.insertionSort_cons, filter_orderedInsert (List.pairwise_insertionSort r l),
      filter_insertionSort l, List.filter_cons]
    split_ifs
    · rw [List.insertionSort_cons]
    · rfl

theorem orderedInsert_comm [IsTrans α r] [Std.Total r] (hab : ¬ r a b) : ∀ l : List α,
    (l.orderedInsert r b).orderedInsert r a = (l.orderedInsert r a).orderedInsert r b
  | [] => by
    have hba : r b a := (Std.Total.total a b).resolve_left hab
    simp [hab, hba]
  | x :: l => by
    have hba : r b a := (Std.Total.total a b).resolve_left hab
    by_cases hbx : r b x
    · by_cases hax : r a x <;> simp [hbx, hax, hab, hba]
    · have hax : ¬ r a x := fun hax =>
        hab (IsTrans.trans a x b hax ((Std.Total.total b x).resolve_left hbx))
      simp [hbx, hax, orderedInsert_comm hab l]

theorem insertionSort_orderedInsert_append [IsTrans α r] [Std.Total r] (m : List α) :
    ∀ l : List α, (l.orderedInsert r a ++ m).insertionSort r =
      ((l ++ m).insertionSort r).orderedInsert r a
  | [] => rfl
  | x :: l => by
    by_cases hax : r a x
    · rw [List.orderedInsert_cons_of_le r l hax, List.cons_append, List.insertionSort_cons]
    · rw [List.orderedInsert_of_not_le r l hax, List.cons_append, List.insertionSort_cons,
        insertionSort_orderedInsert_append m l, List.cons_append, List.insertionSort_cons,
        orderedInsert_comm hax]

/-- Sorting a first part ahead changes nothing. -/
theorem insertionSort_append [IsTrans α r] [Std.Total r] (m : List α) : ∀ l : List α,
    (l.insertionSort r ++ m).insertionSort r = (l ++ m).insertionSort r
  | [] => rfl
  | a :: l => by
    rw [List.insertionSort_cons, insertionSort_orderedInsert_append, insertionSort_append m l,
      List.cons_append, List.insertionSort_cons]

omit [DecidableRel r] in
/-- A sorted list splits where an upward closed predicate first holds. -/
theorem split_findIdx (hp : ∀ x y, r x y → p x = true → p y = true) : ∀ {l : List α},
    l.Pairwise r → l.drop (l.findIdx p) = l.filter p ∧
      l.take (l.findIdx p) = l.filter fun x => !p x
  | [], _ => ⟨rfl, rfl⟩
  | x :: l, h => by
    obtain ⟨hx, hl⟩ := List.pairwise_cons.1 h
    cases hpx : p x
    · obtain ⟨hd, ht⟩ := split_findIdx hp hl
      simp [List.findIdx_cons, hpx, hd, ht]
    · have hall : ∀ y ∈ l, p y = true := fun y hy => hp x y (hx y hy) hpx
      have hnone : l.filter (fun x => !p x) = [] := by
        rw [List.filter_eq_nil_iff]
        intro y hy
        simp [hall y hy]
      simp [List.findIdx_cons, hpx, List.filter_eq_self.2 hall, hnone]

end Stable
