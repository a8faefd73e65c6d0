import Kumofs.Proofs.Session

/-!
# The buffers of a session

A call's buffer is with its caller, in the queue, or with a transport. It is only put in the queue
while nothing is bound, and whoever binds the first transport takes the queue after that; so the
queue of a session that is bound waits for a `bind_transport` that is in progress, or is empty.
-/

namespace Kumofs.Rpc

open Machine

variable {τ : Type} {w w' : World τ}

/-- The buffers a `bind_transport` has taken from the queue for its transport. -/
def Binding.taken : Binding τ → List (τ × ℕ)
  | .bound _ => []
  | .sending t pendings => pendings.map (t, ·)

/-- The buffers that were sent, and those that a `bind_transport` is about to send. -/
def World.handed (w : World τ) : List (τ × ℕ) := w.sent ++ w.binding.flatMap Binding.taken

/-- The call has not returned. -/
def World.inCall (w : World τ) (n : ℕ) : ℕ := w.calling.countP (·.call == n)

/-- A call's buffer is at one place, and the queue of a session that is bound is empty, or a
`bind_transport` is about to take it. -/
structure Kept (w : World τ) : Prop where
  once : ∀ n, w.inCall n + w.session.pendingQueue.count n + w.handed.countP (·.2 == n) =
    if n < w.msgids.length then 1 else 0
  queue : w.session.binds ≠ [] → w.session.pendingQueue = [] ∨ ∃ t, .bound t ∈ w.binding

theorem Kept.congr (h : Kept w) (hids : w'.msgids = w.msgids) (hcalling : w'.calling = w.calling)
    (hbinding : w'.binding = w.binding) (hsent : w'.sent = w.sent)
    (hqueue : w'.session.pendingQueue = w.session.pendingQueue)
    (hbinds : w'.session.binds = w.session.binds) : Kept w' := by
  refine ⟨fun n => ?_, by rw [hbinds, hqueue, hbinding]; exact h.queue⟩
  unfold World.inCall World.handed
  rw [hids, hcalling, hbinding, hsent, hqueue]
  exact h.once n

theorem Kept.call {n : UInt16} (h : Kept w) : Kept (w.call n) := by
  refine ⟨fun m => ?_, h.queue⟩
  have hone := h.once m
  have hin : (w.call n).inCall m = w.inCall m + (w.msgids.length == m).toNat := by
    unfold World.inCall World.call
    rw [List.countP_append, List.countP_singleton]
    cases w.msgids.length == m <;> rfl
  rw [hin]
  show _ + w.session.pendingQueue.count m + w.handed.countP (·.2 == m) =
    if m < (w.msgids ++ [_]).length then 1 else 0
  rw [List.length_append, List.length_singleton]
  by_cases hm : w.msgids.length = m
  · subst hm
    simp only [beq_self_eq_true, Bool.toNat_true, Nat.lt_irrefl, if_false] at hone ⊢
    rw [if_pos (Nat.lt_succ_self _)]
    omega
  · have hzero : (w.msgids.length == m).toNat = 0 := by simp [hm]
    have hiff : m < w.msgids.length + 1 ↔ m < w.msgids.length := by omega
    simp only [hiff]
    omega

theorem Kept.insert {k : ℕ} {c : Calling} (h : Kept w) (hc : w.calling[k]? = some c) :
    Kept (w.insert k c) := by
  refine ⟨fun n => ?_, h.queue⟩
  have hset := Counting.countP_set (p := fun c : Calling => c.call == n)
    (y := { c with inserted := true }) hc
  have hin : (w.insert k c).inCall n = w.inCall n := by
    unfold World.inCall World.insert
    simp only at hset ⊢
    omega
  rw [hin]
  exact h.once n

theorem Kept.submit {k : ℕ} {c : Calling} (h : Kept w) (hl : w.session.lost = false)
    (hc : w.calling[k]? = some c) : Kept (w.submit k c) := by
  have herase : ∀ n, (w.calling.eraseIdx k).countP (·.call == n) + (c.call == n).toNat =
      w.inCall n := fun n => Counting.countP_eraseIdx (p := fun c : Calling => c.call == n) hc
  unfold World.submit
  simp only [hl, Bool.false_eq_true, if_false]
  split
  · rename_i hnone
    have hempty : w.session.binds = [] := by
      by_contra hne
      have hlen := List.length_pos_iff.2 hne
      rw [List.getElem?_eq_none_iff] at hnone
      have := Nat.mod_lt w.session.msgidRr.toNat hlen
      omega
    refine ⟨fun n => ?_, fun hne => absurd hempty hne⟩
    have hone := h.once n
    have hcount := herase n
    have hpush : (w.session.pendingQueue ++ [c.call]).count n =
        w.session.pendingQueue.count n + (c.call == n).toNat := by
      rw [List.count_append, List.count_singleton]
      cases c.call == n <;> rfl
    simp only [World.inCall, World.handed, hpush] at hone hcount ⊢
    omega
  · rename_i t ht
    refine ⟨fun n => ?_, h.queue⟩
    have hone := h.once n
    have hcount := herase n
    have hsend : [(t, c.call)].countP (·.2 == n) = (c.call == n).toNat := by
      rw [List.countP_singleton]
      cases c.call == n <;> rfl
    simp only [World.inCall, World.handed, List.countP_append, hsend] at hone hcount ⊢
    omega

theorem countP_taken (t : τ) (pendings : List ℕ) (n : ℕ) :
    (Binding.taken (.sending t pendings)).countP (·.2 == n) = pendings.count n := by
  unfold Binding.taken
  rw [List.countP_map]
  rfl

theorem Kept.bind {t : τ} (h : Kept w) : Kept (w.bind t) := by
  refine ⟨fun n => ?_, fun _ => .inr ⟨t, List.mem_append_right _ (List.mem_singleton_self _)⟩⟩
  have hone := h.once n
  simp only [World.inCall, World.handed, World.bind, List.flatMap_append, List.flatMap_cons,
    List.flatMap_nil, Binding.taken, List.append_nil] at hone ⊢
  exact hone

theorem Kept.swap {k : ℕ} {t : τ} (h : Kept w) (ht : w.binding[k]? = some (.bound t)) :
    Kept (w.swap k t) := by
  refine ⟨fun n => ?_, fun _ => .inl rfl⟩
  have hone := h.once n
  have hset := Counting.countP_flatMap_set (q := fun x : τ × ℕ => x.2 == n) (f := Binding.taken)
    (y := .sending t w.session.pendingQueue) ht
  rw [countP_taken, show Binding.taken (.bound t) = [] from rfl, List.countP_nil] at hset
  show _ = if n < w.msgids.length then 1 else 0
  rw [← hone]
  simp only [World.inCall, World.handed, World.swap, List.countP_append, List.count_nil]
  omega

theorem Kept.send {k : ℕ} {t : τ} {pendings : List ℕ} (h : Kept w)
    (ht : w.binding[k]? = some (.sending t pendings)) : Kept (w.send k t pendings) := by
  cases pendings with
  | nil =>
    refine ⟨fun n => ?_, fun hne => (h.queue hne).imp_right ?_⟩
    · have hone := h.once n
      have herase := Counting.countP_flatMap_eraseIdx (q := fun x : τ × ℕ => x.2 == n)
        (f := Binding.taken) ht
      rw [countP_taken, List.count_nil] at herase
      show _ = if n < w.msgids.length then 1 else 0
      rw [← hone]
      simp only [World.inCall, World.handed, World.send, List.countP_append]
      omega
    · rintro ⟨u, hu⟩
      refine ⟨u, ?_⟩
      obtain ⟨j, hj⟩ := List.mem_iff_getElem?.1 hu
      have hjk : j ≠ k := by
        rintro rfl
        rw [ht] at hj
        cases hj
      exact List.mem_eraseIdx_iff_getElem?.2 ⟨j, hjk, hj⟩
  | cons b pendings =>
    refine ⟨fun n => ?_, fun hne => (h.queue hne).imp_right ?_⟩
    · have hone := h.once n
      have hset := Counting.countP_flatMap_set (q := fun x : τ × ℕ => x.2 == n)
        (f := Binding.taken) (y := .sending t pendings) ht
      have hsend : [(t, b)].countP (·.2 == n) = (b == n).toNat := by
        rw [List.countP_singleton]
        cases b == n <;> rfl
      have hcons : (b :: pendings).count n = pendings.count n + (b == n).toNat := by
        rw [List.count_cons]
        cases b == n <;> rfl
      rw [countP_taken, countP_taken, hcons] at hset
      show _ = if n < w.msgids.length then 1 else 0
      rw [← hone]
      simp only [World.inCall, World.handed, World.send, List.countP_append, hsend]
      omega
    · rintro ⟨u, hu⟩
      refine ⟨u, ?_⟩
      obtain ⟨j, hj⟩ := List.mem_iff_getElem?.1 hu
      have hjk : k ≠ j := by
        rintro rfl
        rw [ht] at hj
        cases hj
      exact List.mem_of_getElem? ((List.getElem?_set_ne hjk).trans hj)

theorem Kept.unbind [DecidableEq τ] {t : τ} (h : Kept w) : Kept (w.unbind t) := by
  refine ⟨h.once, fun hne => h.queue ?_⟩
  intro hnil
  apply hne
  unfold World.unbind
  simp only [hnil, List.filter_nil]

/-- A session that is not lost afterwards was not before. -/
theorem step_kept [DecidableEq τ] {a : Act τ} (h : w.session.lost = false → Kept w)
    (hs : w.step a = some w') (hl : w'.session.lost = false) : Kept w' := by
  obtain ⟨-, hs⟩ := stepped_of_step hs
  cases hs with
  | call n => exact (h hl).call
  | insert hc hin => exact (h hl).insert hc
  | @submit k c hc hin =>
    have hlost : w.session.lost = false := by
      unfold World.submit at hl
      simp only [] at hl
      split_ifs at hl with hw
      · exact absurd (hw.symm.trans hl) (by simp)
      · exact Bool.eq_false_of_not_eq_true hw
    exact (h hlost).submit hlost hc
  | processResponse msgid =>
    unfold World.processResponse at hl ⊢
    split
    · rename_i hout
      rw [hout] at hl
      exact h hl
    · rename_i e cbs hout
      rw [hout] at hl
      exact (h hl).congr rfl rfl rfl rfl rfl rfl
  | stepTimeout => exact (h hl).congr rfl rfl rfl rfl rfl rfl
  | forceLost => cases hl
  | sweep k x =>
    unfold World.sweep at hl ⊢
    cases hk : x.kind with
    | forEachClear =>
      rw [hk] at hl
      exact (h hl).congr rfl rfl rfl rfl rfl rfl
    | eraseIf =>
      rw [hk] at hl
      exact (h hl).congr rfl rfl rfl rfl rfl rfl
  | bind t => exact (h hl).bind
  | swap ht => exact (h hl).swap ht
  | @send k t pendings ht =>
    have hlost : w.session.lost = false := by cases pendings <;> exact hl
    exact (h hlost).send ht
  | unbind t => exact (h hl).unbind
  | destroy _ _ => cases hl

theorem init_kept : Kept (.init : World τ) := ⟨fun n => by simp [World.init, World.inCall,
  World.handed], fun h => absurd rfl h⟩

/-- On a session that is not lost, the buffer of every call that has returned is in the queue or
with one transport, and nothing is left in the queue of a session that is bound, unless a
`bind_transport` is in progress. -/
theorem buffers_handed_once [DecidableEq τ] {as : List (Act τ)}
    (hrun : Run World.step Free .init as w) (hl : w.session.lost = false) :
    (∀ n < w.msgids.length, (∀ c ∈ w.calling, c.call ≠ n) →
      w.session.pendingQueue.count n + w.handed.countP (·.2 == n) = 1) ∧
    (w.binding = [] → w.session.binds ≠ [] → w.session.pendingQueue = []) := by
  have h := hrun.inv (I := fun w => w.session.lost = false → Kept w)
    (fun _ _ _ h _ hs hl => step_kept h hs hl) (fun _ => init_kept) hl
  refine ⟨fun n hn hreturned => ?_, fun hnone hbound => ?_⟩
  · have hone := h.once n
    have hin : w.inCall n = 0 := by
      unfold World.inCall
      rw [List.countP_eq_zero]
      intro c hc hcall
      exact hreturned c hc (by simpa using hcall)
    rw [if_pos hn, hin] at hone
    omega
  · rcases h.queue hbound with hq | ⟨t, ht⟩
    · exact hq
    · rw [hnone] at ht
      exact absurd ht List.not_mem_nil

/-- A call waits for the session to be bound; another is made while the transport is being bound,
and a third after it. The transport is lost, and a fourth call waits for the next one. -/
def reconnect : List (Act ℕ) :=
  [.call 5, .insert 0, .submit 0, .bind 7, .call 5, .insert 0, .submit 0, .swap 0, .send 0, .send 0,
    .call 5, .insert 0, .submit 0, .unbind 7, .call 5, .insert 0, .submit 0, .bind 8, .swap 0,
    .send 0, .send 0]

theorem buffers_handed_reconnect : ∃ w : World ℕ, Run World.step Free .init reconnect w ∧
    w.sent = [(7, 1), (7, 0), (7, 2), (8, 3)] ∧ w.session.pendingQueue = [] ∧
    ∀ n < 4, w.session.pendingQueue.count n + w.handed.countP (·.2 == n) = 1 := by
  obtain ⟨w, hrun, hsent, hl, hbinding, hbinds, hcalling, hids⟩ : ∃ w : World ℕ,
      Run World.step Free .init reconnect w ∧ w.sent = [(7, 1), (7, 0), (7, 2), (8, 3)] ∧
      w.session.lost = false ∧ w.binding = [] ∧ w.session.binds = [8] ∧ w.calling = [] ∧
      w.msgids.length = 4 :=
    ⟨_, exec_run (rfl : exec World.step .init reconnect = some _), rfl, rfl, rfl, rfl, rfl, rfl⟩
  obtain ⟨hone, hqueue⟩ := buffers_handed_once hrun hl
  refine ⟨w, hrun, hsent, hqueue hbinding (by rw [hbinds]; decide), fun n hn => ?_⟩
  exact hone n (by rw [hids]; exact hn) (by simp [hcalling])

end Kumofs.Rpc
