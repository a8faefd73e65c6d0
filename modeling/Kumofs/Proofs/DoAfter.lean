import Kumofs.System.DoAfter
import Mathlib.Data.List.Perm.Basic
import Mathlib.Data.Nat.Basic
import Mathlib.Tactic.Ring

/-!
# When a function is called

A function that is put in with some steps is called by the call of `step_do_after` that comes after
so many others, once, and in the order of those that are due with it. What the others throw, or how
long they take, makes no difference. `step_timeout` is called at its interval as long as no two
threads are at `m_timer_remain_steps` at once.
-/

namespace Kumofs

open Machine (Run Free)

variable {α : Type}

/-- The number of the `step_do_after` that takes the function. -/
def DoAfter.due (c : DoAfter α) : ℕ := c.since + c.steps

namespace WavyServer

variable {s t : WavyServer α} {a : Act α} {as : List (Act α)} {func : α} {k n : ℕ}

/-- What is due in a call of `step_do_after`, in the order it was put in. -/
def dueIn (s : WavyServer α) (k : ℕ) : List α :=
  (s.asked.filter (·.due = k)).map (·.func)

def calledBy (s : WavyServer α) (k : ℕ) : List α :=
  (s.called.filter (·.1 = k)).map (·.2)

/-- The functions that are still to be called. -/
def pending (s : WavyServer α) : List α := s.fire.flatten ++ s.doAfter.map (·.func)

/-! ## What a step is -/

theorem splice_fst : ∀ es : List (DoAfterEntry α),
    (splice es).1 = (es.filter (·.remainSteps = 0)).map (·.func)
  | [] => rfl
  | e :: es => by
    unfold splice
    split_ifs with h
    · rw [List.filter_cons_of_pos (by simpa using h), List.map_cons, splice_fst es]
    · rw [List.filter_cons_of_neg (by simpa using h), splice_fst es]

theorem splice_snd : ∀ es : List (DoAfterEntry α),
    (splice es).2 = (es.filter (·.remainSteps ≠ 0)).map
      fun e => { e with remainSteps := e.remainSteps - 1 }
  | [] => rfl
  | e :: es => by
    unfold splice
    split_ifs with h
    · rw [List.filter_cons_of_neg (by simpa using h), splice_snd es]
    · rw [List.filter_cons_of_pos (by simpa using h), List.map_cons, splice_snd es]

theorem splice_perm : ∀ es : List (DoAfterEntry α),
    (es.map (·.func)).Perm ((splice es).1 ++ (splice es).2.map (·.func))
  | [] => .nil
  | e :: es => by
    unfold splice
    split_ifs
    · exact (splice_perm es).cons e.func
    · simp only [List.map_cons]
      exact ((splice_perm es).cons e.func).trans List.perm_middle.symm

/-- What `timer_handler` does to `m_timer_remain_steps` leaves the list alone. -/
structure Timed (s t : WavyServer α) : Prop where
  doAfter : t.doAfter = s.doAfter
  fire : t.fire = s.fire
  asked : t.asked = s.asked
  called : t.called = s.called

theorem timed_timerHandler (s : WavyServer α) : Timed s s.timerHandler := by
  unfold timerHandler
  split_ifs <;> exact ⟨rfl, rfl, rfl, rfl⟩

theorem timed_timerStep (h : s.timerStep k = some t) : Timed s t := by
  unfold timerStep at h
  split at h
  · cases h
    exact ⟨rfl, rfl, rfl, rfl⟩
  · cases h
    exact ⟨rfl, rfl, rfl, rfl⟩
  · cases h
    exact ⟨rfl, rfl, rfl, rfl⟩
  · cases h

theorem stepDoAfter_eq (h : s.stepDoAfter = some t) :
    0 < s.entered ∧ t = { s with
      entered := s.entered - 1
      doAfter := (splice s.doAfter).2
      fire := s.fire ++ [(splice s.doAfter).1] } := by
  unfold stepDoAfter at h
  split_ifs at h with h0
  cases h
  exact ⟨by omega, rfl⟩

theorem call_eq (h : s.call k = some (func, t)) :
    ∃ rest, s.fire[k]? = some (func :: rest) ∧
      t = { s with fire := s.fire.set k rest, called := s.called ++ [(k, func)] } := by
  unfold call at h
  split at h
  · rename_i f rest hk
    cases h
    exact ⟨rest, hk, rfl⟩
  · cases h

/-! ## What is still to be called -/

theorem pending_ask (s : WavyServer α) (steps : ℕ) (func : α) :
    (s.ask steps func).pending = s.pending ++ [func] := by
  simp only [pending, ask, List.map_append, List.map_cons, List.map_nil, List.append_assoc]

theorem Timed.pending (h : Timed s t) : t.pending = s.pending := by
  unfold WavyServer.pending
  rw [h.fire, h.doAfter]

theorem pending_stepDoAfter (h : s.stepDoAfter = some t) : t.pending.Perm s.pending := by
  obtain ⟨-, rfl⟩ := stepDoAfter_eq h
  simp only [pending, List.flatten_append, List.flatten_cons, List.flatten_nil, List.append_nil,
    List.append_assoc]
  exact (splice_perm s.doAfter).symm.append_left _

theorem flatten_set : ∀ {ls : List (List α)} {k : ℕ} {x : α} {l : List α},
    ls[k]? = some (x :: l) → ls.flatten.Perm (x :: (ls.set k l).flatten)
  | [], k, x, l, h => by cases h
  | m :: ls, 0, x, l, h => by
    obtain rfl : m = x :: l := by simpa using h
    exact .refl _
  | m :: ls, k + 1, x, l, h => by
    have hk : ls[k]? = some (x :: l) := by simpa using h
    have ih := flatten_set hk
    simp only [List.flatten_cons, List.set_cons_succ]
    exact (ih.append_left m).trans List.perm_middle

theorem pending_call (h : s.call k = some (func, t)) : s.pending.Perm (func :: t.pending) := by
  obtain ⟨rest, hk, rfl⟩ := call_eq h
  exact (flatten_set hk).append_right _

/-! ## The call that is due -/

/-- What has been called, what is in `fire` and what waits in `m_do_after`, by the `step_do_after`
that each is due in. -/
structure OnTime (s : WavyServer α) : Prop where
  waiting : s.doAfter = (s.asked.filter (s.fire.length ≤ ·.due)).map
    fun c => ⟨c.due - s.fire.length, c.func⟩
  fired : ∀ k l, s.fire[k]? = some l → s.calledBy k ++ l = s.dueIn k
  called : ∀ c ∈ s.called, c.1 < s.fire.length
  all : (s.called.map (·.2) ++ s.pending).Perm (s.asked.map (·.func))

theorem calledBy_nil (h : ∀ c ∈ s.called, c.1 < n) (hk : n ≤ k) : s.calledBy k = [] := by
  unfold calledBy
  rw [List.filter_eq_nil_iff.2, List.map_nil]
  intro c hc
  have := h c hc
  simp only [decide_eq_true_eq]
  omega

theorem onTime_ask (h : s.OnTime) (steps : ℕ) (func : α) : (s.ask steps func).OnTime := by
  refine ⟨?_, fun k l hk => ?_, h.called, ?_⟩
  · let c : DoAfter α := ⟨steps, func, s.fire.length⟩
    have hdue : s.fire.length ≤ c.due := Nat.le_add_right _ _
    have hleft : c.due - s.fire.length = steps := Nat.add_sub_cancel_left ..
    show s.doAfter ++ [⟨steps, func⟩] = ((s.asked ++ [c]).filter
      fun c => s.fire.length ≤ c.due).map fun c => ⟨c.due - s.fire.length, c.func⟩
    rw [List.filter_append, List.map_append, List.filter_cons_of_pos (by simpa using hdue),
      ← h.waiting]
    simp only [List.filter_nil, List.map_cons, List.map_nil, hleft, c]
  · have hlt : k < s.fire.length := (List.getElem?_eq_some_iff.1 hk).1
    have hnot : (s.ask steps func).dueIn k = s.dueIn k := by
      simp only [dueIn, ask, List.filter_append]
      have hdue : (DoAfter.mk steps func s.fire.length).due ≠ k := by
        simp only [DoAfter.due]
        omega
      rw [List.filter_cons_of_neg (by simpa using hdue), List.filter_nil, List.append_nil]
    rw [hnot]
    exact h.fired k l hk
  · rw [pending_ask, ← List.append_assoc]
    simp only [ask, List.map_append, List.map_cons, List.map_nil]
    exact h.all.append_right _

theorem Timed.onTime (ht : Timed s t) (h : s.OnTime) : t.OnTime := by
  refine ⟨?_, fun k l hk => ?_, ?_, ?_⟩
  · rw [ht.doAfter, ht.asked, ht.fire]
    exact h.waiting
  · rw [calledBy, ht.called, dueIn, ht.asked]
    exact h.fired k l (ht.fire ▸ hk)
  · rw [ht.called, ht.fire]
    exact h.called
  · rw [ht.called, ht.pending, ht.asked]
    exact h.all

theorem onTime_stepDoAfter (h : s.OnTime) (ht : s.stepDoAfter = some t) : t.OnTime := by
  have hp := pending_stepDoAfter ht
  obtain ⟨-, rfl⟩ := stepDoAfter_eq ht
  refine ⟨?_, fun k l hk => ?_, fun c hc => ?_, (hp.append_left _).trans h.all⟩
  · simp only [splice_snd, List.length_append, List.length_cons, List.length_nil]
    rw [h.waiting, List.filter_map, List.map_map, List.filter_filter]
    have hdue : ∀ c ∈ s.asked, (((fun e : DoAfterEntry α => decide (e.remainSteps ≠ 0)) ∘
        fun c : DoAfter α => ⟨c.due - s.fire.length, c.func⟩) c &&
          decide (s.fire.length ≤ c.due)) = decide (s.fire.length + (0 + 1) ≤ c.due) := by
      intro c _
      simp only [Function.comp_apply, Bool.and_eq_decide, decide_eq_decide, decide_eq_true_eq]
      omega
    rw [List.filter_congr hdue]
    refine List.map_congr_left fun c _ => ?_
    simp only [Function.comp_apply, DoAfterEntry.mk.injEq, and_true]
    omega
  · rw [List.getElem?_append] at hk
    split_ifs at hk with hlt
    · exact h.fired k l hk
    · obtain ⟨he, hl⟩ : k - s.fire.length = 0 ∧ (splice s.doAfter).1 = l := by
        rw [List.getElem?_singleton] at hk
        split_ifs at hk with he
        exact ⟨he, Option.some.inj hk⟩
      obtain rfl : k = s.fire.length := by omega
      have hnil : s.calledBy s.fire.length = [] := calledBy_nil h.called le_rfl
      show s.calledBy s.fire.length ++ l = s.dueIn s.fire.length
      rw [hnil, List.nil_append, ← hl, splice_fst, h.waiting, List.filter_map, List.map_map,
        List.filter_filter]
      unfold dueIn
      congr 1
      refine List.filter_congr fun c _ => ?_
      simp only [Function.comp_apply, Bool.and_eq_decide, decide_eq_decide, decide_eq_true_eq]
      omega
  · have := h.called c hc
    simp only [List.length_append, List.length_cons, List.length_nil]
    omega

theorem onTime_call (h : s.OnTime) (ht : s.call k = some (func, t)) : t.OnTime := by
  have hp := pending_call ht
  obtain ⟨rest, hk, rfl⟩ := call_eq ht
  have hlt : k < s.fire.length := (List.getElem?_eq_some_iff.1 hk).1
  refine ⟨?_, fun j l hj => ?_, fun c hc => ?_, ?_⟩
  · simpa only [List.length_set] using h.waiting
  · show (List.map _ (List.filter _ (s.called ++ [(k, func)]))) ++ l = s.dueIn j
    rw [List.filter_append, List.map_append]
    simp only [List.getElem?_set] at hj
    split_ifs at hj with he
    · subst he
      obtain rfl := Option.some.inj hj
      rw [List.filter_cons_of_pos (by simp), List.filter_nil, List.append_assoc]
      exact h.fired k _ hk
    · rw [List.filter_cons_of_neg (by simpa using he), List.filter_nil, List.map_nil,
        List.append_nil]
      exact h.fired j l hj
  · rw [List.length_set]
    rcases List.mem_append.1 hc with hc | hc
    · exact h.called c hc
    · obtain rfl := List.mem_singleton.1 hc
      exact hlt
  · simp only [List.map_append, List.map_cons, List.map_nil, List.append_assoc,
      List.singleton_append]
    exact (hp.symm.append_left _).trans h.all

theorem onTime_step (h : s.OnTime) (ht : s.step a = some t) : t.OnTime := by
  cases a with
  | doAfter steps func =>
    cases ht
    exact onTime_ask h steps func
  | timerHandler =>
    cases ht
    exact (timed_timerHandler s).onTime h
  | timerStep k => exact (timed_timerStep ht).onTime h
  | stepDoAfter => exact onTime_stepDoAfter h ht
  | call k =>
    obtain ⟨⟨func, u⟩, hu, rfl⟩ := Option.map_eq_some_iff.1 ht
    exact onTime_call h hu

theorem onTime_init (usec : UInt64) : (init usec : WavyServer α).OnTime :=
  ⟨rfl, fun k l hk => by simp [init] at hk, fun c hc => absurd hc List.not_mem_nil, .nil⟩

/-! ## The time of `step_timeout` -/

/-- A `timer_handler` begins when no other one is at `m_timer_remain_steps`. -/
def Alone (s : WavyServer α) : Act α → Prop
  | .timerHandler => s.timing = []
  | .doAfter _ _ | .timerStep _ | .stepDoAfter | .call _ => True

instance [DecidableEq α] (s : WavyServer α) : ∀ a, Decidable (s.Alone a)
  | .timerHandler => inferInstanceAs (Decidable (_ = _))
  | .doAfter _ _ | .timerStep _ | .stepDoAfter | .call _ => inferInstanceAs (Decidable True)

/-- The number of `timer_handler`s that have begun. -/
def begun (s : WavyServer α) : ℕ := s.timing.length + s.entered + s.fire.length

/-- The one `timer_handler` that is at `m_timer_remain_steps`, and what it makes of it. -/
inductive Timing (s : WavyServer α) : ℕ → Prop
  | none : s.timing = [] → Timing s s.timerRemainSteps.toNat
  | timeout : s.timing = [.timeout] → Timing s s.timerIntervalSteps.toNat
  | stepping : s.timing = [.stepping] → s.timerRemainSteps ≠ 0 →
      Timing s (s.timerRemainSteps.toNat - 1)
  | decrementing : s.timing = [.decrementing s.timerRemainSteps] → s.timerRemainSteps ≠ 0 →
      Timing s (s.timerRemainSteps.toNat - 1)

/-- The `timer_handler`s that have begun, by the calls of `step_timeout`. -/
structure Paced (interval : UInt64) (s : WavyServer α) : Prop where
  same : s.timerIntervalSteps = interval
  paced : ∃ remain ≤ interval.toNat, Timing s remain ∧
    s.begun + remain = (interval.toNat + 1) * s.timeouts + interval.toNat

variable {interval : UInt64}

theorem toNat_pred {x : UInt64} (hx : x ≠ 0) : 0 < x.toNat ∧ (x - 1).toNat = x.toNat - 1 := by
  have hpos : 0 < x.toNat := by
    rw [Nat.pos_iff_ne_zero]
    intro h
    exact hx (UInt64.toNat_inj.1 h)
  refine ⟨hpos, UInt64.toNat_sub_of_le _ _ ?_⟩
  rw [UInt64.le_iff_toNat_le]
  exact hpos

theorem Paced.timerHandler (h : Paced interval s) (ha : s.timing = []) :
    Paced interval s.timerHandler := by
  obtain ⟨hsame, remain, hle, ht, hp⟩ := h
  obtain rfl : remain = s.timerRemainSteps.toNat := by
    cases ht with
    | none _ => rfl
    | timeout h | stepping h _ | decrementing h _ => simp [ha] at h
  unfold WavyServer.timerHandler
  split_ifs with h0
  · refine ⟨hsame, interval.toNat, le_rfl, ?_, ?_⟩
    · exact hsame ▸ .timeout (by simp [ha])
    · rw [h0] at hp
      simp only [begun, ha, List.nil_append, List.length_singleton, List.length_nil, Nat.mul_succ,
        UInt64.toNat_zero] at hp ⊢
      omega
  · obtain ⟨hpos, -⟩ := toNat_pred h0
    refine ⟨hsame, s.timerRemainSteps.toNat - 1, by omega, .stepping (by simp [ha]) h0, ?_⟩
    simp only [begun, ha, List.nil_append, List.length_singleton, List.length_nil] at hp ⊢
    omega

theorem Paced.timerStep (h : Paced interval s) (ht : s.timerStep k = some t) :
    Paced interval t := by
  obtain ⟨hsame, remain, hle, hts, hp⟩ := h
  unfold WavyServer.timerStep at ht
  cases hts with
  | none h0 => simp [h0] at ht
  | timeout h1 =>
    rcases k with _ | k <;> simp only [h1, List.getElem?_cons_zero, List.getElem?_cons_succ,
      List.getElem?_nil] at ht <;> cases ht
    refine ⟨hsame, interval.toNat, le_rfl, ?_, ?_⟩
    · exact hsame ▸ .none (by simp [store, h1])
    · simp only [begun, store, h1, hsame, List.eraseIdx_cons_zero, List.length_singleton,
        List.length_nil] at hp ⊢
      omega
  | stepping h1 h0 =>
    rcases k with _ | k <;> simp only [h1, List.getElem?_cons_zero, List.getElem?_cons_succ,
      List.getElem?_nil] at ht <;> cases ht
    refine ⟨hsame, _, hle, .decrementing (by simp) h0, ?_⟩
    simp only [begun, h1, List.set_cons_zero, List.length_singleton] at hp ⊢
    exact hp
  | decrementing h1 h0 =>
    rcases k with _ | k <;> simp only [h1, List.getElem?_cons_zero, List.getElem?_cons_succ,
      List.getElem?_nil] at ht <;> cases ht
    obtain ⟨hpos, hpred⟩ := toNat_pred h0
    refine ⟨hsame, _, hle, hpred ▸ .none (by simp [store, h1]), ?_⟩
    simp only [begun, store, h1, List.eraseIdx_cons_zero, List.length_singleton,
      List.length_nil] at hp ⊢
    omega

/-- What happens apart from `m_timer_remain_steps`. -/
theorem Paced.beside (h : Paced interval s) (hi : t.timerIntervalSteps = s.timerIntervalSteps)
    (hr : t.timerRemainSteps = s.timerRemainSteps) (hto : t.timeouts = s.timeouts)
    (htm : t.timing = s.timing) (hb : t.begun = s.begun) : Paced interval t := by
  obtain ⟨hsame, remain, hle, hts, hp⟩ := h
  refine ⟨hi.trans hsame, remain, hle, ?_, by rw [hb, hto, hp]⟩
  cases hts with
  | none h => exact hr ▸ .none (htm.trans h)
  | timeout h => exact hi ▸ .timeout (htm.trans h)
  | stepping h h0 => exact hr ▸ .stepping (htm.trans h) (hr.symm ▸ h0)
  | decrementing h h0 => exact hr ▸ .decrementing (by rw [htm, h, hr]) (hr.symm ▸ h0)

theorem Paced.step (h : Paced interval s) (ha : s.Alone a) (ht : s.step a = some t) :
    Paced interval t := by
  cases a with
  | doAfter steps func =>
    cases ht
    exact h.beside rfl rfl rfl rfl rfl
  | timerHandler =>
    cases ht
    exact h.timerHandler ha
  | timerStep k => exact h.timerStep ht
  | stepDoAfter =>
    obtain ⟨h0, rfl⟩ := stepDoAfter_eq ht
    refine h.beside rfl rfl rfl rfl ?_
    simp only [begun, List.length_append, List.length_cons, List.length_nil]
    omega
  | call k =>
    obtain ⟨⟨func, u⟩, hu, rfl⟩ := Option.map_eq_some_iff.1 ht
    obtain ⟨rest, -, rfl⟩ := call_eq hu
    refine h.beside rfl rfl rfl rfl ?_
    simp only [begun, List.length_set]

theorem timeouts_eq (h : Paced interval s) : s.timeouts = s.begun / (interval.toNat + 1) := by
  obtain ⟨-, remain, hle, -, hp⟩ := h
  refine (Nat.div_eq_of_lt_le ?_ ?_).symm
  · rw [Nat.mul_comm]
    omega
  · rw [Nat.mul_comm, Nat.mul_succ]
    omega

/-- Every function is called once, by the call of `step_do_after` that it is due in and in the
order of those that are due with it; until then it waits in `m_do_after`. If no two threads are at
`m_timer_remain_steps` at once, `step_timeout` is called by the `timer_handler` that comes after
`interval` others. -/
theorem called_onTime {usec : UInt64} (h : Run step Free (init usec : WavyServer α) as s) :
    (∀ k l, s.fire[k]? = some l → s.calledBy k ++ l = s.dueIn k) ∧
    (∀ k, s.fire.length ≤ k → s.calledBy k = []) ∧
    s.doAfter = (s.asked.filter (s.fire.length ≤ ·.due)).map
      (fun c => ⟨c.due - s.fire.length, c.func⟩) ∧
    (s.called.map (·.2) ++ s.pending).Perm (s.asked.map (·.func)) ∧
    (Run step Alone (init usec : WavyServer α) as s →
      s.timeouts = s.begun / ((usec / timerPrecisionUsec).toNat + 1)) := by
  have ht : s.OnTime := h.inv (fun _ _ _ hs _ => onTime_step hs) (onTime_init usec)
  refine ⟨ht.fired, fun k hk => calledBy_nil ht.called hk, ht.waiting, ht.all, fun h => ?_⟩
  have hp : Paced (usec / timerPrecisionUsec) s := by
    refine h.inv (fun _ _ _ hs ha hst => hs.step ha hst) ⟨rfl, _, le_rfl, .none rfl, ?_⟩
    simp [init, begun]
  exact timeouts_eq hp

/-- Two threads are in `timer_handler`; the one that comes second to the list calls first. -/
def twoHandlers : List (Act ℕ) :=
  [.doAfter 1 7, .timerHandler, .timerStep 0, .doAfter 0 8, .timerStep 0, .timerHandler,
    .timerStep 0, .timerStep 0, .stepDoAfter, .stepDoAfter, .call 1, .call 0, .timerHandler,
    .timerStep 0, .stepDoAfter]

theorem called_onTime_twoHandlers : ∃ s, Run step Free (init 1000000) twoHandlers s ∧
    s.called = [(1, 7), (0, 8)] ∧ s.calledBy 0 ++ [] = s.dueIn 0 ∧ s.timeouts = 3 / (2 + 1) := by
  have hrun : Run step Alone (init 1000000) twoHandlers _ := Machine.execIf_run rfl
  have hfree := hrun.mono fun _ _ _ => trivial
  obtain ⟨hfired, -, -, -, htimeouts⟩ := called_onTime hfree
  exact ⟨_, hfree, rfl, hfired 0 [] rfl, htimeouts hrun⟩

end WavyServer

end Kumofs
