import Mathlib.Data.List.Dedup
import Mathlib.Data.List.Perm.Basic

/-!
# The distinct elements of a list

In the order in which they first come, `List.eraseDups`. A walk that skips what it has seen finds
them one after another: `distinct_append` is one of its steps, `distinct_of_seen` its end.
-/

namespace Distinct

variable {α : Type*} [DecidableEq α] {x : α} {l pre post seen : List α}

/-- The distinct elements that are not among `seen`. -/
def distinct (seen l : List α) : List α := (l.filter (· ∉ seen)).eraseDups

theorem distinct_nil : distinct [] l = l.eraseDups := by
  simp [distinct]

theorem distinct_of_seen (h : ∀ x ∈ l, x ∈ seen) : distinct seen l = [] := by
  have hl : l.filter (· ∉ seen) = [] := by
    rw [List.filter_eq_nil_iff]
    intro x hx
    simpa using h x hx
  unfold distinct
  rw [hl, List.eraseDups_nil]

theorem distinct_append (hpre : ∀ x ∈ pre, x ∈ seen) (hx : x ∉ seen) :
    distinct seen (pre ++ x :: post) = x :: distinct (x :: seen) post := by
  have hl : pre.filter (· ∉ seen) = [] := by
    rw [List.filter_eq_nil_iff]
    intro y hy
    simpa using hpre y hy
  unfold distinct
  rw [List.filter_append, hl, List.nil_append, List.filter_cons_of_pos (by simpa using hx),
    List.eraseDups_cons, List.filter_filter]
  congr 2
  apply List.filter_congr
  intro y _
  rw [Bool.eq_iff_iff]
  simp [not_or]

theorem distinct_cons_of_mem (hx : x ∈ seen) : distinct seen (x :: l) = distinct seen l := by
  unfold distinct
  rw [List.filter_cons_of_neg (by simpa using hx)]

/-- Only what has been seen counts, not in which order. -/
theorem distinct_congr {seen' : List α} (h : ∀ x, x ∈ seen ↔ x ∈ seen') :
    distinct seen l = distinct seen' l := by
  unfold distinct
  simp only [h]

theorem nodup_eraseDups : ∀ l : List α, l.eraseDups.Nodup
  | [] => by simp
  | x :: l => by
    rw [List.eraseDups_cons, List.nodup_cons]
    refine ⟨?_, nodup_eraseDups (l.filter fun y => !y == x)⟩
    rw [List.mem_eraseDups, List.mem_filter]
    simp
termination_by l => l.length
decreasing_by exact Nat.lt_succ_of_le (List.length_filter_le _ _)

/-- Taking elements out before the repeated ones go and after it is the same. -/
theorem filter_eraseDups (p : α → Bool) : ∀ l : List α,
    l.eraseDups.filter p = (l.filter p).eraseDups
  | [] => by simp
  | x :: l => by
    have ih := filter_eraseDups p (l.filter fun y => !y == x)
    rw [List.eraseDups_cons, List.filter_cons, ih, List.filter_cons, List.filter_filter]
    cases hx : p x
    · have hkeep : l.filter (fun y => p y && !y == x) = l.filter p := by
        apply List.filter_congr
        intro y _
        by_cases hy : y = x
        · rw [hy, hx, Bool.false_and]
        · simp [hy]
      rw [hkeep]
      rfl
    · rw [if_pos rfl, if_pos rfl, List.eraseDups_cons, List.filter_filter]
      simp only [Bool.and_comm]
termination_by l => l.length
decreasing_by exact Nat.lt_succ_of_le (List.length_filter_le _ _)

omit [DecidableEq α] in
/-- The first `k` elements without some of them are first among the rest. -/
theorem filter_take_prefix (p : α → Bool) (l : List α) (k : ℕ) :
    (l.take k).filter p <+: (l.filter p).take k := by
  rw [List.prefix_take_iff]
  refine ⟨(List.take_prefix k l).filter p, ?_⟩
  exact Nat.le_trans (List.length_filter_le _ _) (List.length_take_le _ _)

/-- Lists of the same elements have as many distinct ones. -/
theorem length_eraseDups {l' : List α} (hd : l'.Nodup) (h : ∀ x, x ∈ l ↔ x ∈ l') :
    l.eraseDups.length = l'.length := by
  refine ((List.perm_ext_iff_of_nodup (nodup_eraseDups l) hd).2 fun x => ?_).length_eq
  rw [List.mem_eraseDups]
  exact h x

/-- A map that tells the elements apart leaves what is distinct. -/
theorem eraseDups_map {β : Type*} [DecidableEq β] (f : α → β) : ∀ l : List α,
    (∀ x ∈ l, ∀ y ∈ l, f x = f y → x = y) → (l.map f).eraseDups = l.eraseDups.map f
  | [], _ => by simp
  | x :: l, hf => by
    have hfilter : (l.map f).filter (fun b => !b == f x) = (l.filter fun y => !y == x).map f := by
      rw [List.filter_map]
      congr 1
      refine List.filter_congr fun y hy => ?_
      have hxy := hf y (List.mem_cons_of_mem _ hy) x List.mem_cons_self
      by_cases h : y = x
      · simp [h]
      · have hne : f y ≠ f x := fun he => h (hxy he)
        simp [h, hne]
    rw [List.map_cons, List.eraseDups_cons, List.eraseDups_cons, List.map_cons, hfilter,
      eraseDups_map f (l.filter fun y => !y == x)]
    intro y hy z hz
    exact hf y (List.mem_cons_of_mem _ (List.mem_of_mem_filter hy)) z
      (List.mem_cons_of_mem _ (List.mem_of_mem_filter hz))
termination_by l => l.length
decreasing_by exact Nat.lt_succ_of_le (List.length_filter_le _ _)

end Distinct
