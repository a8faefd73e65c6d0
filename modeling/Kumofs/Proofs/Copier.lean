import Kumofs.Lib.Count
import Kumofs.Sample
import Kumofs.Server.Copier
import Mathlib.Data.List.Perm.Subperm

/-!
# When a server says that its copy is over

The counter is the work left for the time of `replace_state`, if a task for a time only begins
when no work for that time is left: its `reset` forgets the work there is, whose pops would then
be taken for those of the new task.
-/

namespace Kumofs.Server.Copier

variable {ρ : Type*} {c d : Copier ρ} {t u : ClockTime}

/-- A task for time `t` that has begun. -/
def begunFor (t : ClockTime) (task : CopyTask) : Bool :=
  task.phase ≠ .submitted && task.replaceTime = t

/-- The work left for time `t`: tasks that have not ended, streams without an acknowledgement and
acknowledgements not popped. -/
def work (c : Copier ρ) (t : ClockTime) : ℕ :=
  c.tasks.countP (begunFor t) + c.unacked.countP (·.replaceTime = t) + c.popping.countP (· = t)

/-- The counter is the work left, or it is -1 and none is left. -/
def Counts (c : Copier ρ) (left : ℕ) : Prop :=
  c.state.pushWaiting = left ∨ c.state.pushWaiting = -1 ∧ left = 0

structure Inv (c : Copier ρ) : Prop where
  offered : c.accumSet.Subperm c.unacked
  counts : c.Counts (c.work c.state.clocktime)

/-- No scan for time `t` runs and no stream offered for it lacks its acknowledgement. -/
structure Quiet (c : Copier ρ) (t : ClockTime) : Prop where
  scans : ∀ task ∈ c.tasks, task.replaceTime = t →
    task.phase ≠ .scanning ∧ task.phase ≠ .waiting
  streams : ∀ st ∈ c.unacked, st.replaceTime ≠ t

theorem quiet_of_work (h : c.work t = 0) : c.Quiet t := by
  unfold work at h
  constructor
  · intro task htask ht
    have hz : begunFor t task = false := by
      by_contra hb
      have := Counting.countP_pos_of_mem htask (Bool.eq_true_of_not_eq_false hb)
      omega
    unfold begunFor at hz
    constructor
    · intro hp
      simp [hp, ht] at hz
    · intro hp
      simp [hp, ht] at hz
  · intro st hst ht
    have := Counting.countP_pos_of_mem (p := (·.replaceTime = t)) hst (by simpa using ht)
    omega

/-! ## The counter -/

theorem foldl_pushed (set : List (Stream ρ)) : ∀ s : ReplaceState,
    set.foldl (fun s _ => s.pushed t) s =
      { s with pushWaiting := s.pushWaiting + if t = s.clocktime then set.length else 0 } := by
  induction set with
  | nil =>
    intro s
    simp
  | cons st set ih =>
    intro s
    rw [List.foldl_cons, ih]
    unfold ReplaceState.pushed
    by_cases hs : t = s.clocktime
    · simp only [hs, if_true, List.length_cons]
      congr 1
      omega
    · simp [hs]

/-- A pop of time `t` takes one from the work of that time that the counter counts. -/
theorem replaceOfferPop_counts (h : c.Counts (c.work c.state.clocktime + (decide
    (t = c.state.clocktime)).toNat)) :
    (c.replaceOfferPop t).Counts (c.work c.state.clocktime) ∧
      (c.replaceOfferPop t).state.clocktime = c.state.clocktime ∧
      ∀ m, (c.replaceOfferPop t).sent = (m, u) :: c.sent → u = t ∧ c.work t = 0 := by
  unfold replaceOfferPop ReplaceState.pushReturned ReplaceState.isFinished Counts at *
  by_cases ht : t = c.state.clocktime
  · subst ht
    simp only [if_true, decide_true, Bool.toNat_true, true_and] at h ⊢
    by_cases hf : c.state.pushWaiting - 1 = 0
    · simp only [hf, decide_true, if_true, ReplaceState.invalidate, List.cons.injEq,
        Prod.mk.injEq, and_true, true_and]
      refine ⟨.inr ?_, fun m hm => ⟨hm.2.symm, ?_⟩⟩
      · omega
      · omega
    · simp only [hf, decide_false, Bool.false_eq_true, if_false, true_and]
      refine ⟨?_, fun m hm => absurd (congrArg List.length hm) (by simp)⟩
      omega
  · have ht' : ¬ c.state.clocktime = t := fun h => ht h.symm
    simp only [ht, ht', if_false, decide_false, Bool.toNat_false, Nat.add_zero, false_and,
      Bool.false_eq_true, true_and] at h ⊢
    exact ⟨h, fun m hm => absurd (congrArg List.length hm) (by simp)⟩

/-- A pop changes the counter, and may send `ReplaceCopyEnd` for its time. -/
theorem replaceOfferPop_eq (c : Copier ρ) (t : ClockTime) : ∃ state sent,
    c.replaceOfferPop t = { c with state := state, sent := sent } ∧
      (sent = c.sent ∨ ∃ m, sent = (m, t) :: c.sent) := by
  unfold replaceOfferPop
  simp only []
  split_ifs
  · exact ⟨_, _, rfl, .inr ⟨_, rfl⟩⟩
  · exact ⟨_, _, rfl, .inl rfl⟩

theorem replaceOfferPop_work : (c.replaceOfferPop t).work u = c.work u := by
  obtain ⟨state, sent, he, -⟩ := c.replaceOfferPop_eq t
  rw [he]
  rfl

theorem replaceOfferPop_offered (h : c.accumSet.Subperm c.unacked) :
    (c.replaceOfferPop t).accumSet.Subperm (c.replaceOfferPop t).unacked := by
  obtain ⟨state, sent, he, -⟩ := c.replaceOfferPop_eq t
  rw [he]
  exact h

/-- A pop keeps the invariant, and tells the truth when it ends the copy. -/
theorem replaceOfferPop_inv (ho : c.accumSet.Subperm c.unacked)
    (h : c.Counts (c.work c.state.clocktime + (decide (t = c.state.clocktime)).toNat)) :
    (c.replaceOfferPop t).Inv ∧
      ∀ m, (c.replaceOfferPop t).sent = (m, u) :: c.sent → (c.replaceOfferPop t).Quiet u := by
  obtain ⟨hc, hct, hs⟩ := replaceOfferPop_counts (u := u) h
  refine ⟨⟨replaceOfferPop_offered ho, ?_⟩, fun m hm => ?_⟩
  · rw [hct, replaceOfferPop_work]
    exact hc
  · obtain ⟨rfl, hw⟩ := hs m hm
    exact quiet_of_work (by rwa [replaceOfferPop_work])

/-! ## Steps -/

/-- A task only begins when no work for its time is left. -/
def BeginsQuiet (c : Copier ρ) : Act ρ → Prop
  | .begin k => ∀ task ∈ c.tasks[k]?, c.work task.replaceTime = 0
  | _ => True

instance : ∀ a, Decidable (BeginsQuiet c a)
  | .begin k => inferInstanceAs (Decidable (∀ task ∈ c.tasks[k]?, _ = 0))
  | .submit .. | .offer .. | .resume .. | .scanEnd .. | .skip .. | .finish .. | .accept ..
  | .pop .. | .timeout .. => inferInstanceAs (Decidable True)

theorem taskIn_eq {k : ℕ} {phase : Phase} {task : CopyTask} (h : c.taskIn k phase = some task) :
    c.tasks[k]? = some task ∧ task.phase = phase := by
  unfold taskIn at h
  simpa [Option.filter_eq_some_iff] using h

/-- A task that goes on within its scan stays work left. -/
theorem setPhase_work {k : ℕ} {phase phase' : Phase} {task : CopyTask}
    (h : c.taskIn k phase = some task) (hp : phase ≠ .submitted) (hp' : phase' ≠ .submitted) :
    (c.setPhase k task phase').work u = c.work u := by
  obtain ⟨hk, rfl⟩ := taskIn_eq h
  have hset := Counting.countP_set (p := begunFor u) (y := { task with phase := phase' }) hk
  have hb : begunFor u { task with phase := phase' } = begunFor u task := by
    simp [begunFor, hp, hp']
  unfold work setPhase
  rw [hb] at hset
  simp only []
  omega

theorem sendOffer_inv {offer : List (Address × ρ)} (h : c.Counts (c.work c.state.clocktime))
    (hmem : 0 < c.work t) : (c.sendOffer t offer).Inv := by
  refine ⟨(List.sublist_append_right _ _).subperm, ?_⟩
  unfold sendOffer
  simp only [foldl_pushed]
  unfold Counts work at *
  simp only [List.countP_append, List.countP_map]
  by_cases ht : t = c.state.clocktime
  · subst ht
    have hall : ((fun x : Stream ρ => decide (x.replaceTime = c.state.clocktime)) ∘
        fun o : Address × ρ => Stream.mk o.1 c.state.clocktime o.2) = fun _ => true := by
      funext o
      simp
    simp only [if_true, hall, List.countP_true, List.length_map]
    push_cast
    omega
  · have hnone : ((fun x : Stream ρ => decide (x.replaceTime = c.state.clocktime)) ∘
        fun o : Address × ρ => Stream.mk o.1 t o.2) = fun _ => false := by
      funext o
      simpa using ht
    simp only [ht, if_false, hnone, List.countP_false, Function.const_apply]
    omega

/-- The work that keeps the counter up while a task offers. -/
theorem work_pos {k : ℕ} {phase : Phase} {task : CopyTask} (h : c.taskIn k phase = some task)
    (hp : phase ≠ .submitted) : 0 < c.work task.replaceTime := by
  obtain ⟨hk, rfl⟩ := taskIn_eq h
  have := Counting.countP_pos_of_mem (p := begunFor task.replaceTime) (List.mem_of_getElem? hk)
    (by simp [begunFor, hp])
  unfold work
  omega

theorem setPhase_inv {k : ℕ} {phase phase' : Phase} {task : CopyTask} (hc : c.Inv)
    (h : c.taskIn k phase = some task) (hp : phase ≠ .submitted) (hp' : phase' ≠ .submitted) :
    (c.setPhase k task phase').Inv :=
  ⟨hc.offered, by rw [setPhase_work h hp hp']; exact hc.counts⟩

theorem offer_inv {k : ℕ} {phase' : Phase} {task : CopyTask} {offer : List (Address × ρ)}
    (hc : c.Inv) (h : c.taskIn k .scanning = some task) (hp' : phase' ≠ .submitted) :
    ((c.setPhase k task phase').sendOffer task.replaceTime offer).Inv := by
  refine sendOffer_inv (setPhase_inv hc h (by decide) hp').counts ?_
  rw [setPhase_work h (by decide) hp']
  exact work_pos h (by decide)

/-- After the reset, the begun task is all the work of its time. -/
theorem begin_inv {k : ℕ} {task : CopyTask} (hc : c.Inv) (h : c.taskIn k .submitted = some task)
    (hw : c.work task.replaceTime = 0) :
    ({ c.setPhase k task .scanning with
      state := (ReplaceState.reset task.mgr task.replaceTime).pushed task.replaceTime } :
      Copier ρ).Inv := by
  obtain ⟨hk, hp⟩ := taskIn_eq h
  refine ⟨hc.offered, .inl ?_⟩
  have hset := Counting.countP_set (p := begunFor task.replaceTime)
    (y := { task with phase := .scanning }) hk
  have h0 : begunFor task.replaceTime task = false := by simp [begunFor, hp]
  have h1 : begunFor task.replaceTime { task with phase := .scanning } = true := by
    simp [begunFor]
  rw [h0, h1] at hset
  simp only [Bool.toNat_false, Bool.toNat_true] at hset
  unfold work at hw
  simp only [ReplaceState.pushed, ReplaceState.reset, if_true, work, setPhase]
  omega

theorem accept_inv [DecidableEq ρ] {st : Stream ρ} (hc : c.Inv) (h : st ∈ c.accumSet) :
    ({ c with
      accumSet := c.accumSet.erase st
      unacked := c.unacked.erase st
      popping := c.popping ++ [st.replaceTime] } : Copier ρ).Inv := by
  refine ⟨hc.offered.erase st, ?_⟩
  have hmem : st ∈ c.unacked := hc.offered.subset h
  have he := Counting.countP_erase (p := (·.replaceTime = c.state.clocktime)) hmem
  have hcounts := hc.counts
  unfold Counts work at *
  simp only [List.countP_append, List.countP_singleton]
  by_cases ht : st.replaceTime = c.state.clocktime
  · simp only [ht, decide_true, Bool.toNat_true, if_true] at he ⊢
    omega
  · simp only [ht, decide_false, Bool.toNat_false, Bool.false_eq_true, if_false] at he ⊢
    omega

theorem finish_counts {k : ℕ} {task : CopyTask} (hc : c.Inv)
    (h : c.taskIn k .scanned = some task) :
    Counts { c with tasks := c.tasks.eraseIdx k }
      (work { c with tasks := c.tasks.eraseIdx k } c.state.clocktime +
        (decide (task.replaceTime = c.state.clocktime)).toNat) := by
  obtain ⟨hk, hp⟩ := taskIn_eq h
  have he := Counting.countP_eraseIdx (p := begunFor c.state.clocktime) hk
  have hb : begunFor c.state.clocktime task =
      decide (task.replaceTime = c.state.clocktime) := by simp [begunFor, hp]
  have hcounts := hc.counts
  rw [hb] at he
  unfold Counts work at *
  simp only []
  omega

theorem pop_counts {k : ℕ} (hc : c.Inv) (h : c.popping[k]? = some t) :
    Counts { c with popping := c.popping.eraseIdx k }
      (work { c with popping := c.popping.eraseIdx k } c.state.clocktime +
        (decide (t = c.state.clocktime)).toNat) := by
  have he := Counting.countP_eraseIdx (p := (· = c.state.clocktime)) h
  have hcounts := hc.counts
  unfold Counts work at *
  simp only []
  omega

/-- A step keeps the invariant, and when it sends `ReplaceCopyEnd` no work of that time is left. -/
theorem step_inv [DecidableEq ρ] {a : Act ρ} (hc : c.Inv) (hg : BeginsQuiet c a)
    (h : step c a = some d) :
    d.Inv ∧ ∀ m u, d.sent = (m, u) :: c.sent → d.Quiet u := by
  have silent : d.Inv → d.sent = c.sent → d.Inv ∧ ∀ m u, d.sent = (m, u) :: c.sent → d.Quiet u :=
    fun hd hs => ⟨hd, fun m u hm => absurd (congrArg List.length (hs.symm.trans hm)) (by simp)⟩
  cases a with
  | submit mgr t =>
    cases h
    refine silent ⟨hc.offered, ?_⟩ rfl
    have hcounts := hc.counts
    unfold Counts work at *
    simpa [begunFor] using hcounts
  | begin k =>
    obtain ⟨task, htask, rfl⟩ := Option.map_eq_some_iff.1 h
    exact silent (begin_inv hc htask (hg task (taskIn_eq htask).1)) rfl
  | offer k offer =>
    obtain ⟨task, htask, rfl⟩ := Option.map_eq_some_iff.1 h
    exact silent (offer_inv hc htask (by decide)) rfl
  | resume k =>
    obtain ⟨task, htask, h⟩ := Option.bind_eq_some_iff.1 h
    split_ifs at h
    cases h
    exact silent (setPhase_inv hc htask (by decide) (by decide)) rfl
  | scanEnd k offer =>
    obtain ⟨task, htask, rfl⟩ := Option.map_eq_some_iff.1 h
    exact silent (offer_inv hc htask (by decide)) rfl
  | skip k =>
    obtain ⟨task, htask, rfl⟩ := Option.map_eq_some_iff.1 h
    exact silent (setPhase_inv hc htask (by decide) (by decide)) rfl
  | finish k =>
    obtain ⟨task, htask, rfl⟩ := Option.map_eq_some_iff.1 h
    have hpop := fun u => replaceOfferPop_inv (c := { c with tasks := c.tasks.eraseIdx k }) (u := u)
      hc.offered (finish_counts hc htask)
    exact ⟨(hpop .zero).1, fun m u => (hpop u).2 m⟩
  | accept a =>
    obtain ⟨st, hst, rfl⟩ := Option.map_eq_some_iff.1 h
    exact silent (accept_inv hc (List.mem_of_find?_eq_some hst)) rfl
  | pop k =>
    obtain ⟨t, ht, rfl⟩ := Option.map_eq_some_iff.1 h
    have hpop := fun u => replaceOfferPop_inv (c := { c with popping := c.popping.eraseIdx k })
      (u := u) hc.offered (pop_counts hc ht)
    exact ⟨(hpop .zero).1, fun m u => (hpop u).2 m⟩
  | timeout a =>
    obtain ⟨st, hst, rfl⟩ := Option.map_eq_some_iff.1 h
    exact silent ⟨(List.erase_sublist.subperm).trans hc.offered, hc.counts⟩ rfl

theorem inv_of_run [DecidableEq ρ] {as : List (Act ρ)}
    (h : Machine.Run step BeginsQuiet Copier.init as c) : c.Inv :=
  h.inv (fun _ _ _ hc hg hs => (step_inv hc hg hs).1) ⟨List.Subperm.refl _, .inl rfl⟩

/-- The server sends `ReplaceCopyEnd` for a time only when every scan begun for it has ended and
every stream offered for it is acknowledged. -/
theorem copyEnd_quiet [DecidableEq ρ] {as : List (Act ρ)} {a : Act ρ} {m : Address}
    (h : Machine.Run step BeginsQuiet Copier.init as c) (hg : BeginsQuiet c a)
    (hs : step c a = some d) (hsent : d.sent = (m, t) :: c.sent) : d.Quiet t :=
  (step_inv (inv_of_run h) hg hs).2 m t hsent

/-! A copy of which one stream is not acknowledged yet. In one run it is and the copy ends; in the
other the same copy starts again first. -/

section Sample

open Sample

def offered : List (Act Unit) :=
  [.submit (mgr 1) (.mk' 7 1000), .begin 0, .scanEnd 0 [(svr 2, ())], .finish 0]

theorem copyEnd_quiet_offered : ∃ c d : Copier Unit,
    Machine.Run step BeginsQuiet Copier.init (offered ++ [.accept (svr 2)]) c ∧
      step c (.pop 0) = some d ∧ d.sent = [(mgr 1, .mk' 7 1000)] ∧ d.Quiet (.mk' 7 1000) := by
  have h : Machine.Run step BeginsQuiet Copier.init (offered ++ [.accept (svr 2)]) _ :=
    Machine.execIf_run rfl
  exact ⟨_, _, h, rfl, rfl, copyEnd_quiet (a := .pop 0) h trivial rfl rfl⟩

theorem copyEnd_while_scanning : ∃ c d : Copier Unit,
    Machine.Run step Machine.Free Copier.init
      (offered ++ [.submit (mgr 1) (.mk' 7 1000), .begin 0, .accept (svr 2)]) c ∧
      step c (.pop 0) = some d ∧ d.sent = (mgr 1, .mk' 7 1000) :: c.sent ∧
      ¬ d.Quiet (.mk' 7 1000) := by
  refine ⟨_, _, Machine.exec_run rfl, rfl, rfl, fun hq => ?_⟩
  exact (hq.scans _ List.mem_cons_self rfl).1 rfl

end Sample

end Kumofs.Server.Copier
