import Kumofs.System.Tcbdb

/-!
# Every record is shown once

Where the record shown last is deleted the cursor is past the end, and the next fetch fails. Where
the flag is set before any record is deleted, the first record is shown again.
-/

namespace Kumofs.Tcbdb

variable {β σ : Type} {C : Cursor (Bytes × Bytes) β} {records : β → List (Bytes × Bytes)}
  {lies : β → List (Bytes × Bytes) → List (Bytes × Bytes) → Prop}
  {func : σ → Bytes × Bytes → Answer σ} {user : σ} {pre post : List (Bytes × Bytes)}
  {r : Bytes × Bytes} {cur : β} {deleted : Bool} {n : ℕ}

/-- What `for_each` returns where the records are shown one after another. -/
def result (func : σ → Bytes × Bytes → Answer σ) (user : σ) (records : List (Bytes × Bytes)) : ℤ :=
  if ∀ a ∈ (answers func user records).getLast?, a.del = false then 0 else -1

theorem loop_nil (hC : C.Documented records lies) (h : lies cur pre []) :
    loop C func (n + 1) ⟨cur, deleted⟩ user = some ⟨-1, []⟩ := by
  simp only [loop, Iterator.fetch, hC.record_nil h]

/-- A record that is deleted. -/
theorem loop_del (deleted : Bool) (hC : C.Documented records lies) (h : lies cur pre (r :: post))
    (hret : 0 ≤ (func user r).ret) (hdel : (func user r).del = true) : ∃ cur', lies cur' pre post ∧
    loop C func (n + 1) ⟨cur, deleted⟩ user =
      (loop C func n ⟨cur', false⟩ (func user r).user).map (·.before r) := by
  obtain ⟨cur', hout, h'⟩ := hC.out_cons h
  refine ⟨cur', h', ?_⟩
  have hnot : ¬ (func user r).ret < 0 := by omega
  simp only [loop, Iterator.fetch, hC.record_cons h, hdel, if_true, Iterator.del, hout, hnot,
    if_false, Iterator.reset]

/-- A record that stays, with the flag set: the cursor stays too. -/
theorem loop_stay (hC : C.Documented records lies) (h : lies cur pre (r :: post))
    (hret : 0 ≤ (func user r).ret) (hdel : (func user r).del = false) :
    loop C func (n + 1) ⟨cur, true⟩ user =
      (loop C func n ⟨cur, false⟩ (func user r).user).map (·.before r) := by
  have hnot : ¬ (func user r).ret < 0 := by omega
  simp [loop, Iterator.fetch, hC.record_cons h, hdel, hnot, Iterator.reset]

/-- The last record, where it stays. -/
theorem loop_last (hC : C.Documented records lies) (h : lies cur pre [r])
    (hret : 0 ≤ (func user r).ret) (hdel : (func user r).del = false) :
    loop C func (n + 1) ⟨cur, false⟩ user = some ⟨0, [r]⟩ := by
  have hnot : ¬ (func user r).ret < 0 := by omega
  simp [loop, Iterator.fetch, hC.record_cons h, hdel, hnot, Iterator.next, hC.next_last h]

/-- Another record, where it stays. -/
theorem loop_next {r' : Bytes × Bytes} (hC : C.Documented records lies)
    (h : lies cur pre (r :: r' :: post)) (hret : 0 ≤ (func user r).ret)
    (hdel : (func user r).del = false) : ∃ cur', lies cur' (pre ++ [r]) (r' :: post) ∧
    loop C func (n + 1) ⟨cur, false⟩ user =
      (loop C func n ⟨cur', false⟩ (func user r).user).map (·.before r) := by
  obtain ⟨cur', hnext, h'⟩ := hC.next_cons h
  refine ⟨cur', h', ?_⟩
  have hnot : ¬ (func user r).ret < 0 := by omega
  simp [loop, Iterator.fetch, hC.record_cons h, hdel, hnot, Iterator.next, hnext, Iterator.reset]

theorem result_cons {r' : Bytes × Bytes} :
    result func user (r :: r' :: post) = result func (func user r).user (r' :: post) := by
  simp [result, answers, List.getLast?_cons_cons]

/-- With the flag clear the records are shown one after another. -/
theorem loop_spec (hC : C.Documented records lies) (hret : ∀ user r, 0 ≤ (func user r).ret) :
    ∀ (post pre : List (Bytes × Bytes)) (r : Bytes × Bytes) (cur : β) (user : σ) (n : ℕ),
      lies cur pre (r :: post) → post.length + 1 < n → loop C func n ⟨cur, false⟩ user =
        some ⟨result func user (r :: post), r :: post⟩
  | [], pre, r, cur, user, n + 2, h, _ => by
    by_cases hdel : (func user r).del = true
    · obtain ⟨cur', h', hloop⟩ := loop_del (n := n + 1) false hC h (hret user r) hdel
      rw [hloop, loop_nil hC h']
      simp [Outcome.before, result, answers, hdel]
    · have hdel := Bool.eq_false_of_not_eq_true hdel
      rw [loop_last hC h (hret user r) hdel]
      simp [result, answers, hdel]
  | r' :: post, pre, r, cur, user, n + 1, h, hn => by
    have hn : post.length + 1 < n := by simpa using hn
    rw [result_cons]
    by_cases hdel : (func user r).del = true
    · obtain ⟨cur', h', hloop⟩ := loop_del (n := n) false hC h (hret user r) hdel
      rw [hloop, loop_spec hC hret post _ r' cur' _ n h' hn]
      rfl
    · have hdel := Bool.eq_false_of_not_eq_true hdel
      obtain ⟨cur', h', hloop⟩ := loop_next (n := n) hC h (hret user r) hdel
      rw [hloop, loop_spec hC hret post _ r' cur' _ n h' hn]
      rfl

theorem forEach_nil (hC : C.Documented records lies) {b : β} (hb : records b = []) :
    forEach C func n deleted b user = some ⟨0, []⟩ := by
  simp only [forEach, hC.first_nil hb]

/-- With the flag set it need not be clear where the first record is deleted. -/
theorem forEach_shown (hC : C.Documented records lies) (hret : ∀ user r, 0 ≤ (func user r).ret)
    {b : β} (hb : records b = r :: post) (hn : post.length + 1 < n)
    (hfirst : deleted = true → (func user r).del = true) :
    forEach C func n deleted b user = some ⟨result func user (r :: post), r :: post⟩ := by
  obtain ⟨cur, hcur, h⟩ := hC.first_cons hb
  have hspec := loop_spec hC hret post [] r cur user n h hn
  simp only [forEach, hcur]
  rcases deleted with _ | _
  · exact hspec
  · obtain ⟨m, rfl⟩ : ∃ m, n = m + 1 := ⟨n - 1, by omega⟩
    have hdel := hfirst rfl
    simp only [loop, Iterator.fetch, hC.record_cons h, hdel, if_true, Iterator.del] at hspec ⊢
    obtain ⟨cur', hout, -⟩ := hC.out_cons h
    simpa only [hout] using hspec

/-- Else the first record is shown twice. -/
theorem forEach_twice (hC : C.Documented records lies) (hret : ∀ user r, 0 ≤ (func user r).ret)
    (user : σ) {b : β} (hb : records b = r :: post) (hn : post.length + 2 < n)
    (hfirst : (func user r).del = false) : ∃ ret,
    forEach C func n true b user = some ⟨ret, r :: r :: post⟩ := by
  obtain ⟨cur, hcur, h⟩ := hC.first_cons hb
  obtain ⟨m, rfl⟩ : ∃ m, n = m + 1 := ⟨n - 1, by omega⟩
  refine ⟨result func (func user r).user (r :: post), ?_⟩
  simp only [forEach, hcur]
  rw [loop_stay hC h (hret user r) hfirst,
    loop_spec hC hret post [] r cur _ m h (by omega)]
  rfl

/-- `for_each` ends, and it shows each record once and returns 0 if and only if the last record
stays and the flag does no harm. -/
theorem forEach_iff_spared (hC : C.Documented records lies)
    (hret : ∀ user r, 0 ≤ (func user r).ret) (deleted : Bool) (b : β) (user : σ) :
    ∃ o, forEach C func ((records b).length + 2) deleted b user = some o ∧
      (o.shown.Perm (records b) ∧ o.ret = 0 ↔ Spared func deleted user (records b)) := by
  rcases hb : records b with _ | ⟨r, post⟩
  · exact ⟨_, forEach_nil hC hb, by simp [Spared, answers]⟩
  · have hhead : (∀ a ∈ (answers func user (r :: post)).head?, a.del = true) ↔
        (func user r).del = true := by simp [answers]
    by_cases hfirst : deleted = true → (func user r).del = true
    · refine ⟨_, forEach_shown hC hret hb (by simp) hfirst, ?_⟩
      unfold Spared result
      rw [hhead, and_iff_left hfirst]
      simp
    · obtain ⟨rfl, hdel⟩ := Classical.not_imp.1 hfirst
      obtain ⟨ret, h⟩ := forEach_twice (n := post.length + 3) hC hret user hb (by omega)
        (Bool.eq_false_of_not_eq_true hdel)
      refine ⟨_, h, ?_⟩
      constructor
      · rintro ⟨hperm, -⟩
        have := hperm.length_eq
        simp at this
      · rintro ⟨-, hflag⟩
        exact absurd (hhead.1 (hflag rfl)) hdel

section Sample

/-- A callback that deletes what it is shown. -/
def delAll : Unit → Bytes × Bytes → Answer Unit := fun _ _ => ⟨(), true, 0⟩

/-- A callback that deletes the first record only. -/
def delFirst : Bool → Bytes × Bytes → Answer Bool := fun first _ => ⟨false, first, 0⟩

/-- After the only record is deleted there is an error, whatever the flag was. -/
theorem not_forEach_delAll : (Cursor.zipper (Bytes × Bytes)).Documented (fun b => b.1 ++ b.2)
      (fun b pre post => b = (pre, post)) ∧
    ∀ deleted, ¬ ∃ n o, forEach (Cursor.zipper _) delAll n deleted ([], [([107], [118])]) () =
      some o ∧ o.shown.Perm [([107], [118])] ∧ o.ret = 0 := by
  refine ⟨Cursor.zipper_documented, ?_⟩
  rintro deleted ⟨n, o, ho, -, hret⟩
  obtain ⟨m, rfl⟩ | h : (∃ m, n = m + 2) ∨ n = 0 ∨ n = 1 := by
    rcases n with _ | _ | m
    · exact .inr (.inl rfl)
    · exact .inr (.inr rfl)
    · exact .inl ⟨m, rfl⟩
  · have hshow : forEach (Cursor.zipper _) delAll (m + 2) deleted ([], [([107], [118])]) () =
        some ⟨-1, [([107], [118])]⟩ := rfl
    rw [hshow] at ho
    obtain rfl := Option.some.inj ho
    exact absurd hret (by decide)
  · rcases h with rfl | rfl
    · exact absurd ho (by simp [forEach, Cursor.zipper, loop])
    · exact absurd ho (by simp [forEach, Cursor.zipper, loop, Iterator.fetch, delAll, Iterator.del])

theorem forEach_iff_spared_delFirst : ∃ o,
    forEach (Cursor.zipper (Bytes × Bytes)) delFirst 4 true ([], [([107], []), ([108], [])]) true =
      some o ∧ (o.shown.Perm [([107], []), ([108], [])] ∧ o.ret = 0 ↔
        Spared delFirst true true [([107], []), ([108], [])]) :=
  forEach_iff_spared Cursor.zipper_documented (fun _ _ => le_rfl) true
    ([], [([107], []), ([108], [])]) true

end Sample

end Kumofs.Tcbdb
