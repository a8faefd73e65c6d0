import Mathlib.Data.List.Basic

/-!
# A cursor in a table

The calls of an ordered table that is gone through by a cursor, and what is documented of them: the
cursor is at a record or past the last one, `out` takes the record there away and comes to the one
behind it, and `next` fails at the last record.
-/

/-- A call that fails returns nothing and changes nothing. -/
structure Cursor (ρ β : Type*) where
  first : β → Option β
  record : β → Option ρ
  next : β → Option β
  out : β → Option β

namespace Cursor

variable {ρ β : Type*}

/-- `lies b pre post`: the cursor in `b` is at the first record of `post`, behind those of `pre`. -/
structure Documented (C : Cursor ρ β) (records : β → List ρ) (lies : β → List ρ → List ρ → Prop) :
    Prop where
  lies_records : ∀ {b pre post}, lies b pre post → records b = pre ++ post
  first_nil : ∀ {b}, records b = [] → C.first b = none
  first_cons : ∀ {b r post}, records b = r :: post → ∃ b', C.first b = some b' ∧
    lies b' [] (r :: post)
  record_nil : ∀ {b pre}, lies b pre [] → C.record b = none
  record_cons : ∀ {b pre r post}, lies b pre (r :: post) → C.record b = some r
  next_last : ∀ {b pre r}, lies b pre [r] → C.next b = none
  next_cons : ∀ {b pre r r' post}, lies b pre (r :: r' :: post) → ∃ b', C.next b = some b' ∧
    lies b' (pre ++ [r]) (r' :: post)
  out_cons : ∀ {b pre r post}, lies b pre (r :: post) → ∃ b', C.out b = some b' ∧ lies b' pre post

/-! ## A table in two lists -/

/-- The records before the cursor and those from it on. -/
def zipper (ρ : Type*) : Cursor ρ (List ρ × List ρ) where
  first b := if b.1 ++ b.2 = [] then none else some ([], b.1 ++ b.2)
  record b := b.2.head?
  next b :=
    match b.2 with
    | r :: r' :: post => some (b.1 ++ [r], r' :: post)
    | _ => none
  out b :=
    match b.2 with
    | _ :: post => some (b.1, post)
    | [] => none

theorem zipper_documented : (zipper ρ).Documented (fun b => b.1 ++ b.2)
    fun b pre post => b = (pre, post) where
  lies_records := by
    rintro b pre post rfl
    rfl
  first_nil hb := if_pos hb
  first_cons {b r post} hb := by
    have hne : b.1 ++ b.2 ≠ [] := by simp [hb]
    exact ⟨([], b.1 ++ b.2), if_neg hne, by rw [hb]⟩
  record_nil := by
    rintro b pre rfl
    rfl
  record_cons := by
    rintro b pre r post rfl
    rfl
  next_last := by
    rintro b pre r rfl
    rfl
  next_cons := by
    rintro b pre r r' post rfl
    exact ⟨_, rfl, rfl⟩
  out_cons := by
    rintro b pre r post rfl
    exact ⟨_, rfl, rfl⟩

end Cursor
