import Kumofs.Proofs.ClockOrder
import Kumofs.Sample
import Kumofs.System.Spaces

/-!
# Hash spaces that go back

`HashSpaceSync` and the replies compare clocktimes before they replace a hash space, the tasks of a
replace do not. So a server's hash spaces never go back if and only if no copy task switches to an
older `whs` and no delete task takes over a `whs` older than `rhs`.
-/

namespace Kumofs.Spaces

open Server

variable {hash : Bytes → UInt64} {s t : Spaces} {a : Act}

/-- A copy task runs only where its hash space is not older than a `whs` with an active node, a
delete task only where `whs` is not older than such an `rhs`. -/
def TaskInOrder (st : State) : Task → Prop
  | .replaceCopy hs => older st.whs hs = false
  | .fullReplaceCopy _ => True
  | .replaceDelete _ => older st.rhs st.whs = false

/-- The pool runs the tasks in such an order. -/
def TasksInOrder (hash : Bytes → UInt64) : Spaces → List Act → Prop
  | _, [] => True
  | s, a :: as => ∀ t ∈ step hash s a,
    (∀ k, a = .run k → ∀ task ∈ s.tasks[k]?, TaskInOrder s.server task) ∧ TasksInOrder hash t as

theorem older_self (hs : HashSpace) : older hs hs = false := by
  simp only [older, Bool.and_eq_false_iff, decide_eq_false_iff_not]
  exact .inr fun h => ClockTime.lt_asymm h h

/-- `HashSpaceSync` takes no older hash space. -/
theorem older_sync {hs : HashSpace} {x : Seed} :
    older hs (if hs.clocktime ≤ x.clocktime && !x.empty then .ofSeed hash x else hs) = false := by
  split_ifs with h
  · simp only [Bool.and_eq_true, decide_eq_true_eq] at h
    simp only [older, Bool.and_eq_false_iff, decide_eq_false_iff_not]
    exact .inr h.1
  · exact older_self hs

/-- Neither do the replies, unless there is no active node. -/
theorem older_renew {hs : HashSpace} {x : Seed} : older hs (renew hash hs x) = false := by
  unfold renew
  split_ifs with h
  · simp only [Bool.or_eq_true, decide_eq_true_eq] at h
    simp only [older, Bool.and_eq_false_iff, Bool.not_eq_eq_eq_not, Bool.not_false,
      decide_eq_false_iff_not]
    exact h.imp_right ClockTime.lt_asymm
  · exact older_self hs

theorem older_runTask {st : State} {task : Task} :
    (older st.whs (runTask st task).whs = false ∧ older st.rhs (runTask st task).rhs = false) ↔
      TaskInOrder st task := by
  cases task with
  | replaceCopy hs => exact ⟨fun h => h.1, fun h => ⟨h, older_self _⟩⟩
  | fullReplaceCopy hs => exact ⟨fun _ => trivial, fun _ => ⟨older_self _, older_self _⟩⟩
  | replaceDelete hs => exact ⟨fun h => h.2, fun h => ⟨older_self _, h⟩⟩

/-- A step takes a hash space back only by a task that is out of order. -/
theorem older_step (h : step hash s a = some t) :
    (older s.server.whs t.server.whs = false ∧ older s.server.rhs t.server.rhs = false) ↔
      ∀ k, a = .run k → ∀ task ∈ s.tasks[k]?, TaskInOrder s.server task := by
  have htrue : ∀ {P : Prop}, P → (∀ k, a ≠ .run k) →
      (P ↔ ∀ k, a = .run k → ∀ task ∈ s.tasks[k]?, TaskInOrder s.server task) :=
    fun hp hne => ⟨fun _ k hk => absurd hk (hne k), fun _ => hp⟩
  cases a with
  | run k =>
    obtain ⟨task, hk, rfl⟩ := Option.map_eq_some_iff.1 h
    rw [older_runTask]
    constructor
    · rintro hok j hj task' hj'
      cases hj
      rw [hk] at hj'
      cases hj'
      exact hok
    · exact fun hok => hok k rfl task hk
  | hashSpaceSync wseed rseed adjustClock =>
    cases h
    exact htrue ⟨older_sync, older_sync⟩ (by simp)
  | resWHashSpaceRequest hsseed =>
    cases h
    exact htrue ⟨older_renew, older_self _⟩ (by simp)
  | resRHashSpaceRequest hsseed =>
    cases h
    exact htrue ⟨older_self _, older_renew⟩ (by simp)
  | replaceCopyStart hsseed adjustClock full =>
    cases h
    exact htrue ⟨older_self _, older_self _⟩ (by simp)
  | replaceDeleteStart hsseed adjustClock =>
    cases h
    exact htrue ⟨older_self _, older_self _⟩ (by simp)

/-- From any state of a server and in any order, its hash spaces never go back if and only if the
tasks run in order. -/
theorem neverBack_iff : ∀ (as : List Act) (s : Spaces),
    NeverBack hash s as ↔ TasksInOrder hash s as
  | [], _ => Iff.rfl
  | a :: as, s => by
    unfold NeverBack TasksInOrder
    refine forall_congr' fun t => forall_congr' fun ht => ?_
    rw [older_step ht, neverBack_iff as t]

/-! Two copies in the pool, the later one first. -/

section Sample

open Sample

theorem not_neverBack_swapped : ∃ st : State, st.whs = .init ∧ st.rhs = .init ∧
    ¬ NeverBack zeroHash ⟨st, []⟩
      [.replaceCopyStart oneSeed 1 false, .replaceCopyStart twoSeed 2 false, .run 1, .run 0] := by
  refine ⟨⟨.init, .init, ⟨∅, [], 0, 100, 1000⟩, ⟨1, 1000⟩⟩, rfl, rfl, fun h => ?_⟩
  have h0 := ((h _ rfl).2 _ rfl).2
  have h1 := ((h0 _ rfl).2 _ rfl).1.1
  exact absurd h1 (by decide)

end Sample

end Kumofs.Spaces
