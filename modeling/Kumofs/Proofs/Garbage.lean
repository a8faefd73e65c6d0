import Kumofs.Proofs.Collect
import Kumofs.System.Garbage

/-!
# The queue is accounted for

A round of the loop of `remove` takes the front of the queue with its size from the total, so that
the total stays the sum of the sizes, and the loop ends. Where it ends, the queue is empty, or it is
within its limit and its front is young. So the storage with the queue as it is kept does what the
storage does whose queue is a list.
-/

namespace Kumofs.GarbageStorage

open Storage (Operation)

variable {s t : GarbageStorage} {u : ClockTime} {e : BufferQueue.Entry}
  {es : List BufferQueue.Entry}

/-- The total is the sum of the sizes. -/
structure Sized (s : GarbageStorage) : Prop where
  totalSize : s.garbage.totalSize = (s.garbage.queue.map (·.size)).sum
  sizes : ∀ e ∈ s.garbage.queue, e.size = e.data.2.length + 8

/-! ## A round -/

theorem round_nil (hq : s.garbage.queue = []) : s.round u = none := by
  simp [round, BufferQueue.front, hq]

/-- A round takes the front, if it does not end the loop. -/
theorem round_cons (hq : s.garbage.queue = e :: es) :
    (s.round u = none ∧ s.garbage.totalSize ≤ s.garbageMemLimit ∧
      ¬ e.data.1 < u.beforeSec s.garbageMaxTime) ∨
    ∃ db, s.round u =
      some { s with db := db, garbage := ⟨s.garbage.totalSize - e.size, es⟩ } := by
  unfold round BufferQueue.front
  simp only [hq, List.head?_cons]
  split_ifs with hlim hmin hmax
  · exact .inr ⟨(s.del e).db, by simp [pop, del, BufferQueue.pop, hq]⟩
  · exact .inr ⟨s.db, by simp [pop, BufferQueue.pop, hq]⟩
  · exact .inr ⟨(s.del e).db, by simp [pop, del, BufferQueue.pop, hq]⟩
  · exact .inl ⟨rfl, by omega, hmax⟩

/-- What rounds leave alone; they only take from the front. -/
structure Same (s t : GarbageStorage) : Prop where
  minTime : t.garbageMinTime = s.garbageMinTime
  maxTime : t.garbageMaxTime = s.garbageMaxTime
  memLimit : t.garbageMemLimit = s.garbageMemLimit
  queue : t.garbage.queue <:+ s.garbage.queue

theorem Same.trans {v : GarbageStorage} (h : Same s t) (h' : Same t v) : Same s v :=
  ⟨h'.minTime.trans h.minTime, h'.maxTime.trans h.maxTime, h'.memLimit.trans h.memLimit,
    h'.queue.trans h.queue⟩

theorem Sized.round (hs : s.Sized) (h : s.round u = some t) : t.Sized ∧ Same s t := by
  cases hq : s.garbage.queue with
  | nil =>
    rw [round_nil hq] at h
    cases h
  | cons e es =>
    rcases round_cons (u := u) hq with ⟨hn, -⟩ | ⟨db, hd⟩
    · rw [hn] at h
      cases h
    · rw [hd] at h
      cases h
      refine ⟨⟨?_, fun x hx => ?_⟩, ⟨rfl, rfl, rfl, hq ▸ List.suffix_cons e es⟩⟩
      · have ht := hs.totalSize
        rw [hq, List.map_cons, List.sum_cons] at ht
        simp only []
        omega
      · exact hs.sizes x (by rw [hq]; exact List.mem_cons_of_mem _ hx)

/-! ## The loop -/

theorem drain_none (h : s.round u = none) : drain u s = s := by
  rw [drain]
  split
  · rfl
  next ht => rw [h] at ht; cases ht

theorem drain_some (h : s.round u = some t) : drain u s = drain u t := by
  rw [drain]
  split
  next hn => rw [h] at hn; cases hn
  next ht =>
    rw [h] at ht
    cases ht
    rfl

/-- The loop ends after so many rounds as there are entries at most, and its invariant holds
there. -/
theorem drain_ends (hs : s.Sized) : ∃ n ≤ s.garbage.queue.length,
    rounds u n s = some (drain u s) ∧ (drain u s).round u = none ∧ (drain u s).Sized ∧
      Same s (drain u s) := by
  induction hn : s.garbage.queue.length using Nat.strong_induction_on generalizing s with
  | _ k ih =>
    cases hr : s.round u with
    | none =>
      rw [drain_none hr]
      exact ⟨0, Nat.zero_le _, rfl, hr, hs, ⟨rfl, rfl, rfl, List.suffix_rfl⟩⟩
    | some t =>
      have hlt := length_round u hr
      obtain ⟨ht, hsame⟩ := hs.round hr
      obtain ⟨n, hle, hrounds, hend, hsized, hsame'⟩ := ih _ (hn ▸ hlt) ht rfl
      rw [drain_some hr]
      refine ⟨n + 1, by omega, ?_, hend, hsized, hsame.trans hsame'⟩
      rw [rounds, hr]
      exact hrounds

/-- Where the loop ends. -/
theorem round_none (h : s.round u = none) :
    (s.garbage.totalSize ≤ s.garbageMemLimit ∨ s.garbage.queue = []) ∧
      ∀ e ∈ s.garbage.front, ¬ e.data.1 < u.beforeSec s.garbageMaxTime := by
  cases hq : s.garbage.queue with
  | nil => exact ⟨.inr rfl, by simp [BufferQueue.front, hq]⟩
  | cons e es =>
    rcases round_cons (u := u) hq with ⟨-, hlim, hmax⟩ | ⟨db, hd⟩
    · refine ⟨.inl hlim, fun x hx => ?_⟩
      simp only [BufferQueue.front, hq, List.head?_cons, Option.mem_def, Option.some.injEq] at hx
      exact hx ▸ hmax
    · rw [h] at hd
      cases hd

/-! ## Calls -/

theorem Sized.push (hs : s.Sized) (key : Bytes) : (s.push u key).Sized := by
  refine ⟨?_, fun x hx => ?_⟩
  · simp [GarbageStorage.push, BufferQueue.push, hs.totalSize]
  · simp only [GarbageStorage.push, BufferQueue.push, List.mem_append, List.mem_singleton] at hx
    rcases hx with hx | rfl
    · exact hs.sizes x hx
    · rfl

/-- What holds of the queue between the calls. -/
structure Kept (s : GarbageStorage) : Prop where
  sized : s.Sized
  limit : s.garbage.totalSize ≤ s.garbageMemLimit ∨ s.garbage.queue = []

theorem kept_opened (db : Db) (minTime maxTime : UInt32) (memLimit : ℕ) :
    (opened db minTime maxTime memLimit).Kept :=
  ⟨⟨rfl, by simp [opened, BufferQueue.init]⟩, .inr rfl⟩

theorem remove_false {key : Bytes} (h : (s.remove u key).2 = false) :
    ∃ db, (s.remove u key).1 = { s with db := db } := by
  unfold remove at h ⊢
  simp only [] at h ⊢
  split_ifs at h ⊢
  exact ⟨_, rfl⟩

theorem remove_true {key : Bytes} (h : (s.remove u key).2 = true) :
    (s.remove u key).1 = drain u (s.push u key) := by
  unfold remove at h ⊢
  simp only [] at h ⊢
  split_ifs at h ⊢
  rfl

theorem Kept.remove (hs : s.Kept) (key : Bytes) : (s.remove u key).1.Kept := by
  cases hr : (s.remove u key).2 with
  | false =>
    obtain ⟨db, he⟩ := remove_false hr
    rw [he]
    exact ⟨⟨hs.sized.totalSize, hs.sized.sizes⟩, hs.limit⟩
  | true =>
    rw [remove_true hr]
    obtain ⟨-, -, -, hend, hsized, -⟩ := drain_ends (u := u) (hs.sized.push key)
    exact ⟨hsized, (round_none hend).1⟩

theorem Kept.call (hs : s.Kept) (op : Operation) : (s.call op).Kept := by
  cases op with
  | remove key ct => exact hs.remove key.raw
  | set _ _ | update _ _ | cas _ _ _ | forEach _ =>
    exact ⟨⟨hs.sized.totalSize, hs.sized.sizes⟩, hs.limit⟩

theorem Kept.calls (hs : s.Kept) : ∀ ops : List Operation, (s.calls ops).Kept := by
  intro ops
  induction ops generalizing s with
  | nil => exact hs
  | cons op ops ih => exact ih (hs.call op)

/-- A call puts its tombstone behind the queue, and takes from the front. -/
theorem queue_call (hs : s.Sized) (op : Operation) :
    (s.call op).garbage.queue <:+ s.garbage.queue ++ s.stored op := by
  cases op with
  | set _ _ | update _ _ | cas _ _ _ | forEach _ =>
    exact ⟨[], (List.append_nil s.garbage.queue).symm⟩
  | remove key ct =>
    show (s.remove ct key.raw).1.garbage.queue <:+ _
    cases hr : (s.remove ct key.raw).2 with
    | false =>
      obtain ⟨db, he⟩ := remove_false hr
      rw [he, stored, hr, if_neg Bool.false_ne_true]
      exact ⟨[], (List.append_nil s.garbage.queue).symm⟩
    | true =>
      rw [remove_true hr, stored, hr, if_pos rfl]
      obtain ⟨-, -, -, -, -, hsame⟩ := drain_ends (u := ct) (hs.push key.raw)
      exact hsame.queue

/-- What is in the queue is the end of what was stored. -/
theorem queue_calls : ∀ (ops : List Operation) {s : GarbageStorage}, s.Kept →
    (s.calls ops).garbage.queue <:+ s.garbage.queue ++ s.tombstones ops
  | [], s, _ => by
    rw [tombstones, List.append_nil]
    exact List.suffix_rfl
  | op :: ops, s, hs => by
    obtain ⟨l, hl⟩ := queue_call hs.sized op
    refine (queue_calls ops (hs.call op)).trans ⟨l, ?_⟩
    rw [tombstones, ← List.append_assoc, ← List.append_assoc, hl]

/-- After any calls, a `remove` leaves the queue accounted for, and its loop has ended. -/
theorem remove_accounted (db : Db) (minTime maxTime : UInt32) (memLimit : ℕ)
    (ops : List Operation) (key : DBKey) (ct : ClockTime) :
    let s := (opened db minTime maxTime memLimit).calls ops
    let r := s.remove ct key.raw
    r.1.Accounted ct r.2
        ((opened db minTime maxTime memLimit).tombstones (ops ++ [.remove key ct])) ∧
      (r.2 = true → ∃ n, rounds ct n (s.push ct key.raw) = some r.1 ∧ r.1.round ct = none) := by
  intro s r
  have hqueue := queue_calls (ops ++ [.remove key ct]) (kept_opened db minTime maxTime memLimit)
  rw [calls, List.foldl_append] at hqueue
  have hs : s.Kept := (kept_opened db minTime maxTime memLimit).calls ops
  have hk : r.1.Kept := hs.remove key.raw
  obtain ⟨n, -, hrounds, hend, -⟩ := drain_ends (u := ct) (hs.sized.push key.raw)
  refine ⟨⟨hk.sized.totalSize, hk.limit, hqueue, fun hr => ?_⟩, fun hr => ?_⟩
  · rw [show r.1 = _ from remove_true hr]
    exact (round_none hend).2
  · rw [show r.1 = _ from remove_true hr]
    exact ⟨n, hrounds, hend⟩

section Sample

open Sample

def firstKey : DBKey := ⟨entryKey, meta_le_entryKey⟩

theorem meta_le_secondKey : keyMetaSize ≤ [0, 0, 0, 0, 0, 0, 0, 0, 108].length := by decide

def secondKey : DBKey := ⟨[0, 0, 0, 0, 0, 0, 0, 0, 108], meta_le_secondKey⟩

/-- Of the tombstones of two keys, those that are left are the last. -/
theorem remove_accounted_twoKeys :
    let s := (opened ∅ 0 60 1000).calls [.remove firstKey (.mk' 1 1000)]
    let r := s.remove (.mk' 1 2000) secondKey.raw
    r.2 = true ∧ r.1.garbage.totalSize = (r.1.garbage.queue.map (·.size)).sum ∧
      r.1.garbage.queue <:+
        [clockKey firstKey.raw (.mk' 1 1000), clockKey secondKey.raw (.mk' 1 2000)] := by
  let s := opened ∅ 0 60 1000
  have hfirst : (s.remove (.mk' 1 1000) firstKey.raw).2 = true := by decide
  have hcall : s.call (.remove firstKey (.mk' 1 1000)) = s.push (.mk' 1 1000) firstKey.raw := by
    refine (remove_true hfirst).trans (drain_none ?_)
    rw [← Option.isNone_iff_eq_none]
    decide
  have hsecond : ((s.call (.remove firstKey (.mk' 1 1000))).remove (.mk' 1 2000)
      secondKey.raw).2 = true := by
    rw [hcall]
    decide
  have htombstones : s.tombstones [.remove firstKey (.mk' 1 1000),
      .remove secondKey (.mk' 1 2000)] =
        [clockKey firstKey.raw (.mk' 1 1000), clockKey secondKey.raw (.mk' 1 2000)] := by
    simp only [tombstones, stored]
    rw [if_pos hfirst, if_pos hsecond]
    rfl
  obtain ⟨haccounted, -⟩ := remove_accounted ∅ 0 60 1000
    [.remove firstKey (.mk' 1 1000)] secondKey (.mk' 1 2000)
  exact ⟨hsecond, haccounted.totalSize, htombstones ▸ haccounted.inOrder⟩

end Sample

/-! ## The list -/

theorem totalSize_toStorage (hs : s.Sized) :
    Storage.totalSize s.toStorage.garbage = s.garbage.totalSize := by
  have hmap : ∀ {q : List BufferQueue.Entry}, (∀ e ∈ q, e.size = e.data.2.length + 8) →
      Storage.totalSize (q.map (·.data)) = (q.map (·.size)).sum := by
    intro q hq
    unfold Storage.totalSize
    rw [List.map_map]
    exact congrArg List.sum (List.map_congr_left fun e he => (hq e he).symm)
  rw [hs.totalSize]
  exact hmap hs.sizes

theorem toStorage_round (hs : s.Sized) :
    (s.round u).map toStorage = (s.toStorage.drainOne u).map (·.1) := by
  have ht := totalSize_toStorage hs
  unfold round Storage.drainOne BufferQueue.front
  cases hq : s.garbage.queue with
  | nil => simp [toStorage, hq]
  | cons e es =>
    have hg : s.toStorage.garbage = e.data :: es.map (·.data) := by simp [toStorage, hq]
    rw [hg] at ht ⊢
    simp only [List.head?_cons, ht]
    have hlim : s.toStorage.garbageMemLimit = s.garbageMemLimit := rfl
    have hmin : s.toStorage.garbageMinTime = s.garbageMinTime := rfl
    have hmax : s.toStorage.garbageMaxTime = s.garbageMaxTime := rfl
    rw [hlim, hmin, hmax]
    split_ifs <;> simp [toStorage, pop, del, BufferQueue.pop, hq]

theorem toStorage_drain (hs : s.Sized) : (drain u s).toStorage =
    Storage.drain s.toStorage u s.toStorage.db s.toStorage.garbage := by
  induction hn : s.garbage.queue.length using Nat.strong_induction_on generalizing s with
  | _ k ih =>
    have hround := toStorage_round (u := u) hs
    rw [Storage.drain_eq_drainOne]
    cases hr : s.round u with
    | none =>
      rw [hr, Option.map_none, eq_comm, Option.map_eq_none_iff] at hround
      rw [drain_none hr, hround]
    | some t =>
      have hlt := length_round u hr
      rw [hr, Option.map_some, eq_comm, Option.map_eq_some_iff] at hround
      obtain ⟨r, hr', ht⟩ := hround
      rw [drain_some hr, ih _ (hn ▸ hlt) (hs.round hr).1 rfl, hr', ← ht]

/-- The queue as it is kept makes no difference to `remove`. -/
theorem toStorage_remove (hs : s.Sized) (key : Bytes) :
    ((s.remove u key).1.toStorage, (s.remove u key).2) = s.toStorage.remove key u := by
  have hdrain := toStorage_drain (u := u) (hs.push (u := u) key)
  have hqueue : (s.push u key).toStorage.garbage = s.toStorage.garbage ++ [(u, key)] := by
    simp [toStorage, GarbageStorage.push, BufferQueue.push, clockKey]
  rw [hqueue] at hdrain
  unfold remove Storage.remove
  have hdb : s.toStorage.db = s.db := rfl
  simp only [hdb]
  split_ifs
  · refine Prod.ext ?_ rfl
    rw [hdrain]
    exact Storage.drain_with (s := s.toStorage) _ _ _ _
  · rfl

theorem toStorage_call (hs : s.Sized) (op : Operation) :
    (s.call op).toStorage = s.toStorage.call op := by
  cases op with
  | remove key ct => exact congrArg Prod.fst (toStorage_remove hs key.raw)
  | set _ _ | update _ _ | cas _ _ _ | forEach _ => rfl

/-- Nor to any calls. -/
theorem toStorage_calls : ∀ (ops : List Operation) {s : GarbageStorage}, s.Kept →
    (s.calls ops).toStorage = ops.foldl Storage.call s.toStorage
  | [], _, _ => rfl
  | op :: ops, s, hs => by
    rw [List.foldl_cons, ← toStorage_call hs.sized]
    exact toStorage_calls ops (hs.call op)

end Kumofs.GarbageStorage
