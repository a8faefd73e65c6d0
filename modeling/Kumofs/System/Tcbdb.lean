import Kumofs.Hash
import Kumofs.Lib.Cursor

/-!
# The B-tree storage

`kumo_tcbdb_for_each` of `storage/tcbdb.cc` over a cursor of Tokyo Cabinet. The constructor of the
iterator does not set `deleted`, so that what it is at first is open.
-/

namespace Kumofs.Tcbdb

/-- What a callback does with the record it is shown: what it leaves of the user's data, whether it
calls `iterator_del_force`, and its result. -/
structure Answer (σ : Type) where
  user : σ
  del : Bool
  ret : ℤ

/-- `kumo_tcbdb_iterator`; `cur` is the database with the cursor. -/
structure Iterator (β : Type) where
  cur : β
  deleted : Bool

/-- What `for_each` returns, and the records it has shown. -/
structure Outcome where
  ret : ℤ
  shown : List (Bytes × Bytes)
  deriving DecidableEq

def Outcome.before (r : Bytes × Bytes) (o : Outcome) : Outcome := ⟨o.ret, r :: o.shown⟩

section

variable {β σ : Type} (C : Cursor (Bytes × Bytes) β) (func : σ → Bytes × Bytes → Answer σ)

namespace Iterator

def next (it : Iterator β) : Option (Iterator β) :=
  (C.next it.cur).map fun cur => { it with cur := cur }

/-- Nothing where it throws `std::bad_alloc`. -/
def fetch (it : Iterator β) : Option (Bytes × Bytes) := C.record it.cur

def reset (it : Iterator β) : Iterator β := { it with deleted := false }

/-- `del`; what it returns is not read. -/
def del (it : Iterator β) : Iterator β :=
  match C.out it.cur with
  | some cur => ⟨cur, true⟩
  | none => it

end Iterator

/-- The loop of `kumo_tcbdb_for_each`, for so many rounds. -/
def loop : ℕ → Iterator β → σ → Option Outcome
  | 0, _, _ => none
  | n + 1, it, user =>
    match it.fetch C with
    | none => some ⟨-1, []⟩
    | some r =>
      let a := func user r
      let it := if a.del then it.del C else it
      if a.ret < 0 then some ⟨a.ret, [r]⟩
      else if it.deleted then (loop n it.reset a.user).map (·.before r)
      else
        match it.next C with
        | none => some ⟨0, [r]⟩
        | some it => (loop n it.reset a.user).map (·.before r)

/-- `kumo_tcbdb_for_each`; `deleted` is what the memory of the iterator has. -/
def forEach (n : ℕ) (deleted : Bool) (b : β) (user : σ) : Option Outcome :=
  match C.first b with
  | none => some ⟨0, []⟩
  | some cur => loop C func n ⟨cur, deleted⟩ user

/-! ## Which records are deleted -/

/-- What the callback does when it is shown some records one after another. -/
def answers : σ → List (Bytes × Bytes) → List (Answer σ)
  | _, [] => []
  | user, r :: rs => func user r :: answers (func user r).user rs

/-- The last record stays, and the first is deleted where the flag is set from the start. -/
def Spared (deleted : Bool) (user : σ) (records : List (Bytes × Bytes)) : Prop :=
  (∀ a ∈ (answers func user records).getLast?, a.del = false) ∧
    (deleted = true → ∀ a ∈ (answers func user records).head?, a.del = true)

end

end Kumofs.Tcbdb
