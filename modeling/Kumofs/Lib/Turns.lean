import Mathlib.Data.List.Nodup

/-!
# Answers in turn

Answers are due in the order of a list without repetition, and some of them still wait. What has
been given is right so far where it and what waits are together what is due. An answer keeps this
just where it is the first of those that wait.
-/

namespace Turns

variable {α : Type*} {given due : List α} {waits : α → Bool} {k : α}

/-- An answer that nobody waits for is wrong for good. -/
theorem given_ne_due (hk : k ∉ due) (rest : List α) : given ++ [k] ++ rest ≠ due := by
  rintro rfl
  exact hk (by simp)

/-- A new answer at once is right where none waits. -/
theorem given_append_iff (hk : k ∉ due) :
    given ++ [k] ++ due.filter waits = due ++ [k] ↔
      given ++ due.filter waits = due ∧ due.filter waits = [] := by
  constructor
  · intro h
    have hnil : due.filter waits = [] := by
      by_contra hne
      obtain ⟨x, hx⟩ : ∃ x, (due.filter waits).getLast? = some x :=
        ⟨_, List.getLast?_eq_some_getLast hne⟩
      have hlast := congrArg List.getLast? h
      rw [List.getLast?_append, hx, List.getLast?_concat] at hlast
      have hxk : x = k := by simpa using hlast
      exact hk (hxk ▸ List.mem_of_mem_filter (List.mem_of_getLast? hx))
    rw [hnil, List.append_nil] at h ⊢
    exact ⟨List.append_cancel_right h, rfl⟩
  · rintro ⟨h, hnil⟩
    rw [hnil, List.append_nil] at h ⊢
    rw [h]

/-- The answer to one that waits is right where it is the first. -/
theorem given_cons_iff [DecidableEq α] (hd : due.Nodup) (hk : waits k = true) :
    given ++ [k] ++ due.filter (fun x => waits x && x != k) = due ↔
      given ++ due.filter waits = due ∧ (due.filter waits).head? = some k := by
  have hsplit : due.filter (fun x => waits x && x != k) =
      (due.filter waits).filter (· != k) := by
    rw [List.filter_filter]
    simp only [Bool.and_comm]
  constructor
  · intro h
    have hnodup := hd
    rw [← h, List.append_assoc, List.nodup_append] at hnodup
    obtain ⟨-, -, hdisj⟩ := hnodup
    -- what waits among the answers given so far would be neither `k` nor after it
    have hfilter : due.filter waits =
        given.filter waits ++ k :: due.filter (fun x => waits x && x != k) := by
      conv_lhs => rw [← h]
      simp [List.filter_append, hk, List.filter_filter]
    have hgiven : given.filter waits = [] := by
      have hkeep : (given.filter waits).filter (· != k) = given.filter waits := by
        refine List.filter_eq_self.2 fun x hx => ?_
        have hne := hdisj x (List.mem_of_mem_filter hx) k (by simp)
        simpa using hne
      have hlen := congrArg List.length hsplit
      rw [hfilter, List.filter_append, hkeep, List.length_append] at hlen
      simp only [List.filter_cons, bne_self_eq_false, Bool.false_eq_true, if_false,
        List.filter_filter] at hlen
      have hsame : due.filter (fun x => x != k && (waits x && x != k)) =
          due.filter (fun x => waits x && x != k) := by
        apply List.filter_congr
        intro x _
        cases waits x <;> cases x != k <;> rfl
      rw [hsame] at hlen
      exact List.length_eq_zero_iff.1 (by omega)
    rw [hgiven, List.nil_append] at hfilter
    refine ⟨?_, by rw [hfilter]; rfl⟩
    rw [hfilter]
    simpa using h
  · rintro ⟨h, hhead⟩
    obtain ⟨rest, hrest⟩ : ∃ rest, due.filter waits = k :: rest := by
      cases hw : due.filter waits with
      | nil => rw [hw] at hhead; simp at hhead
      | cons x rest =>
        rw [hw, List.head?_cons, Option.some.injEq] at hhead
        exact ⟨rest, by rw [hhead]⟩
    have hnodup : (k :: rest).Nodup := hrest ▸ hd.filter _
    rw [hsplit, hrest, List.filter_cons]
    simp only [bne_self_eq_false, Bool.false_eq_true, if_false]
    have hkeep : rest.filter (· != k) = rest := by
      refine List.filter_eq_self.2 fun x hx => ?_
      have hne : x ≠ k := fun he => (List.nodup_cons.1 hnodup).1 (he ▸ hx)
      simpa using hne
    rw [hkeep, List.append_assoc, List.singleton_append, ← hrest, h]

end Turns
