import Kumofs.Proofs.Durable
import Kumofs.Proofs.Election
import Kumofs.System.Exchange
import Mathlib.Tactic.IntervalCases

/-!
# One response to a request

A write handler answers once by itself or when its last call is settled, and once more for every
call to a node of `whs` that fails for good. So there is one response in the end if at most one of
those fails and the handler has not answered before. Of the manager's handlers two miss it:
`SetAutoReplace` goes on to its last line after it has answered, and the guard of `ReplaceElection`
does not answer at all.
-/

namespace Kumofs

namespace Server.Handler

/-- A call to a node of `whs` that has failed for good. -/
def lost (c : Call) : Bool := c.status = .failed && !c.byRhs

/-- The handler is past the place where it answers by itself, if it is to. -/
def pastOwn (h : Handler) : Bool :=
  match h.op with
  | .delete _ => h.pc = .send || h.pc = .done
  | _ => h.pc = .done

/-- The response that is not one for a lost call: the handler's own where no call is waited for,
else the one of the last call. -/
def ownCount (h : Handler) : ℕ :=
  if h.calls = [] ∨ h.op.async = true then h.pastOwn.toNat
  else if h.calls.countP (!settled ·) = 0 then 1 else 0

/-- What a handler has answered so far. -/
structure Counted (h : Handler) : Prop where
  early : h.pc = .calc ∨ h.pc = .stamp ∨ h.pc = .apply → h.responses = []
  refused : h.pc = .refused → h.responses.length = 1
  async : h.calls ≠ [] → h.op.async = true →
    h.copyRequired = 0 - UInt32.ofNat (h.calls.countP settled)
  total : h.pc = .send ∨ h.pc = .done → h.responses.length = h.calls.countP lost + h.ownCount

variable {key : DBKey} {s s' : State} {h h' : Handler} {o : Option ℕ} {i : ℕ} {c c' : Call}
  {r : Response}

/-! ## Steps of the handler -/

theorem countP_unsent {p : Call → Bool} {calls : List Call} (h : ∀ c ∈ calls, p c = false) :
    calls.countP p = 0 :=
  List.countP_eq_zero.2 fun c hc => by simp [h c hc]

theorem prepare_unsent (h : Handler) : ∀ c ∈ h.prepare.calls, c.status = .unsent := by
  intro c hc
  simp only [prepare, List.mem_append, List.mem_map] at hc
  rcases hc with ⟨a, -, rfl⟩ | ⟨a, -, rfl⟩
  · rfl
  · rfl

theorem prepare_settled (h : Handler) :
    ∀ c ∈ h.prepare.calls, settled c = false ∧ lost c = false := by
  intro c hc
  simp [settled, lost, prepare_unsent h c hc]

/-- A call that is not settled is waited for. -/
theorem countP_ne_zero_of_mem {calls : List Call} (hc : c ∈ calls) (hs : settled c = false) :
    calls.countP (!settled ·) ≠ 0 := by
  intro h0
  have := List.countP_eq_zero.1 h0 c hc
  simp [hs] at this

/-- Calls that nothing has come of yet wait for the response. -/
theorem countP_not_settled_ne_zero {calls : List Call} (hne : calls ≠ [])
    (hu : ∀ c ∈ calls, settled c = false) : calls.countP (!settled ·) ≠ 0 := by
  obtain ⟨c, hc⟩ := List.exists_mem_of_ne_nil _ hne
  exact countP_ne_zero_of_mem hc (hu c hc)

theorem settled_waiting (hw : c.status = .waiting) : settled c = false := by
  rw [settled, hw]
  rfl

/-- A handler has calls from when it sends them on. -/
theorem Wf.pc_of_call (w : h.Wf) (hc : c ∈ h.calls) : h.pc = .send ∨ h.pc = .done := by
  by_contra hp
  refine w.not_begun ?_ (begun_of_mem hc)
  cases hpc : h.pc <;> simp_all

/-- A handler that has come to its calls and, for a `Delete`, answered by itself if it is to. -/
theorem counted_of_fresh (hp : h.pc = .send)
    (hu : ∀ c ∈ h.calls, settled c = false ∧ lost c = false)
    (ha : h.op.async = true → h.copyRequired = 0)
    (hr : h.responses.length =
      if h.calls = [] ∨ h.op.async = true then h.pastOwn.toNat else 0) : h.Counted := by
  refine ⟨by simp [hp], by simp [hp], fun _ hasync => ?_, fun _ => ?_⟩
  · rw [ha hasync, countP_unsent fun c hc => (hu c hc).1]
    rfl
  · rw [countP_unsent fun c hc => (hu c hc).2, hr, ownCount]
    split_ifs with h1 h2
    · simp
    · exact absurd h2 (countP_not_settled_ne_zero (fun e => h1 (.inl e)) fun c hc => (hu c hc).1)
    · rfl

theorem counted_ended (hp : h.pc = .done) (hc : h.calls = []) (hr : h.responses.length = 1) :
    h.Counted := by
  have hown : h.ownCount = 1 := by
    rw [ownCount, if_pos (.inl hc), pastOwn]
    split <;> simp [hp]
  refine ⟨by simp [hp], by simp [hp], fun hne => absurd hc hne, fun _ => ?_⟩
  rw [hr, hc, hown]
  rfl

/-- A handler that has sent its calls and answers by itself if it is to. -/
theorem Counted.finish (hcnt : h.Counted) (hp : h.pc = .send) (hd : h.op.isDelete = false)
    {b : Bool} : Counted { h.respondIfAlone r with pc := .done, wrote := b } := by
  have htot := hcnt.total (.inl hp)
  have hown : h.pastOwn = false := by
    unfold pastOwn
    split
    next async hop => simp [Op.isDelete, hop] at hd
    next => simp [hp]
  have hown' : ∀ rs,
      Handler.pastOwn { h with pc := .done, wrote := b, responses := rs } = true := by
    intro rs
    unfold pastOwn
    split <;> simp
  unfold respondIfAlone
  split_ifs with hal
  · refine ⟨by simp, by simp, fun hne ha => hcnt.async hne ha, fun _ => ?_⟩
    have h1 : h.ownCount = 0 := by rw [ownCount, if_pos hal, hown]; rfl
    have h2 : Handler.ownCount { h.respond r with pc := .done, wrote := b } = 1 :=
      (if_pos hal).trans (congrArg Bool.toNat (hown' _))
    rw [h2]
    show (r :: h.responses).length = _
    rw [List.length_cons, htot, h1]
    rfl
  · refine ⟨by simp, by simp, fun hne ha => hcnt.async hne ha, fun _ => ?_⟩
    have h1 : h.ownCount = Handler.ownCount { h with pc := .done, wrote := b } :=
      (if_neg hal).trans (if_neg hal).symm
    show h.responses.length = _
    rw [htot, h1]

/-- The handler's own response is not touched by a call that stays unsettled. -/
theorem ownCount_set (hc : h.calls[i]? = some c) (hs : settled c' = settled c) {r₁ r₂ : UInt16}
    {rs : List Response} :
    ownCount { h with calls := h.calls.set i c', rretry := r₁, wretry := r₂, responses := rs } =
      h.ownCount := by
  have hn : (h.calls.set i c').countP (!settled ·) = h.calls.countP (!settled ·) := by
    have := Counting.countP_set (p := (!settled ·)) (y := c') hc
    rw [hs] at this
    omega
  have hnil : h.calls.set i c' = [] ↔ h.calls = [] := by
    rw [← List.length_eq_zero_iff, List.length_set, List.length_eq_zero_iff]
  simp only [ownCount, hnil, hn]
  rfl

/-- A call that changes before it is settled or lost. -/
theorem Counted.setCall (hcnt : h.Counted) (hc : h.calls[i]? = some c)
    (hs : settled c' = settled c) (hl : lost c' = lost c) {r₁ r₂ : UInt16} :
    Counted { h with calls := h.calls.set i c', rretry := r₁, wretry := r₂ } := by
  have hset : (h.calls.set i c').countP settled = h.calls.countP settled := by
    have := Counting.countP_set (p := settled) (y := c') hc
    rw [hs] at this
    omega
  have hlost : (h.calls.set i c').countP lost = h.calls.countP lost := by
    have := Counting.countP_set (p := lost) (y := c') hc
    rw [hl] at this
    omega
  refine ⟨hcnt.early, hcnt.refused, fun _ ha => ?_, fun hp => ?_⟩
  · show h.copyRequired = _
    rw [hset]
    exact hcnt.async (List.ne_nil_of_mem (List.mem_of_getElem? hc)) ha
  · rw [ownCount_set hc hs, hlost]
    exact hcnt.total hp

/-- A `Delete` answers before it sends its calls. -/
theorem counted_delete (hr : h.responses = []) (hd : h.op.isDelete = true) :
    (h.prepare.respondIfAlone r).Counted := by
  have hown : ∀ rs, Handler.pastOwn { h.prepare with responses := rs } = true := by
    intro rs
    unfold pastOwn
    split
    next => rfl
    next hne => 
      exfalso
      cases hop : h.op with
      | delete async => exact hne async hop
      | _ => simp [Op.isDelete, hop] at hd
  unfold respondIfAlone
  split_ifs with hal
  · refine counted_of_fresh rfl (prepare_settled h) (fun ha => if_pos ha) ?_
    refine Eq.trans ?_ (if_pos hal).symm
    refine Eq.trans ?_ (congrArg Bool.toNat (hown _)).symm
    show (r :: h.responses).length = 1
    rw [hr]
    rfl
  · refine counted_of_fresh rfl (prepare_settled h) (fun ha => if_pos ha) ?_
    refine Eq.trans ?_ (if_neg hal).symm
    show h.responses.length = 0
    rw [hr]
    rfl

theorem Moves.counted (m : Moves key s h s' h' o) (w : h.Wf) (hcnt : h.Counted) : h'.Counted := by
  cases m with
  | refused hp =>
    refine ⟨by simp, fun _ => ?_, fun hne => absurd (w.early (.inl hp)).1 hne, by simp⟩
    simp [respond, hcnt.early (.inl hp)]
  | computed hp =>
    exact ⟨fun _ => hcnt.early (.inl hp), by simp, fun hne => absurd (w.early (.inl hp)).1 hne,
      by simp⟩
  | stampedSet hp hop =>
    refine counted_of_fresh rfl (prepare_settled _) (fun ha => if_pos ha) ?_
    have hr : h.responses = [] := hcnt.early (.inr (.inl hp))
    simp [prepare, hr, pastOwn, hop]
  | stamped hp =>
    exact ⟨fun _ => hcnt.early (.inr (.inl hp)), by simp,
      fun hne => absurd (w.early (.inr (.inl hp))).1 hne, by simp⟩
  | idle => exact hcnt
  | casDone hp hop =>
    refine counted_of_fresh rfl (prepare_settled _) (fun ha => if_pos ha) ?_
    have hr : h.responses = [] := hcnt.early (.inr (.inr hp))
    simp [prepare, hr, pastOwn, hop]
  | casFailed hp hop =>
    refine counted_ended rfl (w.early (.inr (.inr (.inl hp)))).1 ?_
    simp [respond, hcnt.early (.inr (.inr hp))]
  | deleteDone hp hop =>
    have hr : h.responses = [] := hcnt.early (.inr (.inr hp))
    exact counted_delete (h := { h with deleted := true, wrote := true }) hr
      (by simp [Op.isDelete, hop])
  | deleteNothing hp hop =>
    refine counted_ended rfl (w.early (.inr (.inr (.inl hp)))).1 ?_
    simp [respond, hcnt.early (.inr (.inr hp))]
  | deleteElsewhere hp hop _ hne =>
    have hr : h.responses = [] := hcnt.early (.inr (.inr hp))
    exact counted_delete (h := { h with reps := { h.reps with wrepto := [] } }) hr
      (by simp [Op.isDelete, hop])
  | send hp hi =>
    obtain ⟨c, hc, hu⟩ := findIdx_unsent hi
    rw [modify_sent hc]
    exact hcnt.setCall hc (by simp [settled, hu]) (by simp [lost, hu])
  | written hp hi hop => exact hcnt.finish hp (by simp [Op.isDelete, hop])
  | casSent hp hi hop =>
    have hf := hcnt.finish (r := .clocktime h.ct) (b := h.wrote) hp (by simp [Op.isDelete, hop])
    unfold respondIfAlone at hf ⊢
    split_ifs at hf ⊢
    · exact hf
    · exact hf
  | deleteSent hp hi hop =>
    have hown : Handler.ownCount { h with pc := .done } = h.ownCount := by
      have hpast : Handler.pastOwn { h with pc := .done } = h.pastOwn := by
        simp [pastOwn, hop, hp]
      show (if _ then (Handler.pastOwn { h with pc := .done }).toNat else _) = _
      rw [hpast]
      rfl
    refine ⟨by simp, by simp, hcnt.async, fun _ => ?_⟩
    rw [hown]
    exact hcnt.total (.inl hp)
  | ended => exact hcnt

/-! ## Callbacks -/

theorem countDown_eq_ite (h : Handler) (r : Response) :
    h.countDown r = { h with
      copyRequired := h.copyRequired - 1
      responses := if h.copyRequired - 1 = 0 then r :: h.responses else h.responses } := by
  unfold countDown
  simp only []
  split_ifs
  · rfl
  · rfl

@[simp] theorem countDown_calls : (h.countDown r).calls = h.calls := by
  rw [countDown_eq_ite]

/-- The counter of an async operation starts at zero and wraps. -/
theorem zero_sub_ofNat_ne {k : ℕ} (h0 : 0 < k) (hk : k ≤ 6) :
    (0 : UInt32) - UInt32.ofNat k ≠ 0 := by
  interval_cases k <;> decide

section Settle

variable (hc : h.calls[i]? = some c) (hw : c.status = .waiting) (hs : settled c' = true)

include hc hw hs

theorem countP_settle : h.calls.countP (!settled ·) = (h.calls.set i c').countP (!settled ·) + 1 ∧
    (h.calls.set i c').countP settled = h.calls.countP settled + 1 ∧
    (h.calls.set i c').countP lost = h.calls.countP lost := by
  have hcs := settled_waiting hw
  have hcl : lost c = false := by rw [lost, hw]; rfl
  have hcl' : lost c' = false := by
    unfold settled at hs
    unfold lost
    cases hst : c'.status <;> simp_all
  have hns := Counting.countP_set (p := (!settled ·)) (y := c') hc
  have hset := Counting.countP_set (p := settled) (y := c') hc
  have hlost := Counting.countP_set (p := lost) (y := c') hc
  simp only [hcs, hs, hcl, hcl', Bool.not_false, Bool.not_true, Bool.toNat_true,
    Bool.toNat_false, Nat.add_zero] at hns hset hlost
  exact ⟨hns.symm, hset, hlost⟩

/-- An operation that is not async counts the calls that are left. -/
theorem Wf.countDown_sync (w : h.Wf) (ha : h.op.async = false) :
    h.copyRequired - 1 = 0 ↔ (h.calls.set i c').countP (!settled ·) = 0 := by
  have hold := w.count (begun_of_mem (List.mem_of_getElem? hc)) ha
  have hns := (countP_settle hc hw hs).1
  have hsub : (h.copyRequired - 1).toNat = (h.calls.set i c').countP (!settled ·) := by
    rw [UInt32.toNat_sub_of_le _ _ (UInt32.le_iff_toNat_le.2 (by simp; omega))]
    simp
    omega
  rw [← hsub]
  exact UInt32.toNat_inj.symm

/-- One that is async has counted below zero. -/
theorem Counted.countDown_async (hcnt : h.Counted) (w : h.Wf) (ha : h.op.async = true) :
    h.copyRequired - 1 = 0 - UInt32.ofNat ((h.calls.set i c').countP settled) ∧
      h.copyRequired - 1 ≠ 0 := by
  have hmem : c ∈ h.calls := List.mem_of_getElem? hc
  have hset := (countP_settle hc hw hs).2.1
  have hcr : h.copyRequired - 1 = 0 - UInt32.ofNat ((h.calls.set i c').countP settled) := by
    rw [hcnt.async (List.ne_nil_of_mem hmem) ha, hset, UInt32.ofNat_add]
    grind
  have hlen : h.calls.length ≤ 6 := by
    have hl := congrArg List.length (w.prepared (begun_of_mem hmem))
    simp only [List.length_map, List.length_append] at hl
    have := w.small
    omega
  have hcount : (h.calls.set i c').countP settled ≤ 6 := by
    have hle := List.countP_le_length (p := settled) (l := h.calls.set i c')
    rw [List.length_set] at hle
    omega
  exact ⟨hcr, hcr ▸ zero_sub_ofNat_ne (by omega) hcount⟩

/-- A call that is settled: the last one brings the response, unless the handler has answered. -/
theorem Counted.settleCall (hcnt : h.Counted) (w : h.Wf) {r₁ r₂ : UInt16} :
    Counted ({ h with calls := h.calls.set i c', rretry := r₁, wretry := r₂ }.countDown r) := by
  rw [countDown_eq_ite]
  have hmem : c ∈ h.calls := List.mem_of_getElem? hc
  have hne : h.calls ≠ [] := List.ne_nil_of_mem hmem
  obtain ⟨hns, -, hlost⟩ := countP_settle hc hw hs
  have hp := w.pc_of_call hmem
  have htot := hcnt.total hp
  have hlate : ¬ (h.pc = .calc ∨ h.pc = .stamp ∨ h.pc = .apply) ∧ h.pc ≠ .refused := by
    rcases hp with hp | hp <;> simp [hp]
  cases ha : h.op.async with
  | false =>
    have halone : ¬ (h.calls = [] ∨ h.op.async = true) := by simp [hne, ha]
    have halone' : ¬ (h.calls.set i c' = [] ∨ h.op.async = true) := by simp [hne, ha]
    have hown : h.ownCount = 0 := by
      rw [ownCount, if_neg halone, if_neg (by omega)]
    have hz := w.countDown_sync hc hw hs ha
    refine ⟨fun hp' => absurd hp' hlate.1, fun hp' => absurd hp' hlate.2, ?_, fun _ => ?_⟩
    · intro _ ha'
      rw [ha] at ha'
      cases ha'
    · have hown' : ∀ n rs, Handler.ownCount { h with
          calls := h.calls.set i c', rretry := r₁, wretry := r₂, copyRequired := n,
          responses := rs } =
          if (h.calls.set i c').countP (!settled ·) = 0 then 1 else 0 := fun n rs => if_neg halone'
      rw [hown']
      show (if h.copyRequired - 1 = 0 then r :: h.responses else h.responses).length =
        (h.calls.set i c').countP lost + _
      by_cases h0 : (h.calls.set i c').countP (!settled ·) = 0
      · rw [if_pos (hz.2 h0), if_pos h0, List.length_cons, htot, hown, hlost]
      · rw [if_neg (fun e => h0 (hz.1 e)), if_neg h0, htot, hown, hlost]
  | true =>
    obtain ⟨hcr, hnz⟩ := hcnt.countDown_async hc hw hs w ha
    refine ⟨fun hp' => absurd hp' hlate.1, fun hp' => absurd hp' hlate.2, fun _ _ => hcr,
      fun _ => ?_⟩
    have hown' : ∀ n rs, Handler.ownCount { h with
        calls := h.calls.set i c', rretry := r₁, wretry := r₂, copyRequired := n,
        responses := rs } =
        h.ownCount := fun n rs => (if_pos (.inr ha)).trans (if_pos (.inr ha)).symm
    rw [hown']
    show (if h.copyRequired - 1 = 0 then r :: h.responses else h.responses).length =
      (h.calls.set i c').countP lost + _
    rw [if_neg hnz, htot, hlost]

end Settle

/-- A call that is lost brings a response of its own. -/
theorem Counted.loseCall (hcnt : h.Counted) (w : h.Wf) (hc : h.calls[i]? = some c)
    (hs : settled c' = settled c) (hl : lost c = false) (hl' : lost c' = true) {r₁ r₂ : UInt16} :
    Counted ({ h with calls := h.calls.set i c', rretry := r₁, wretry := r₂ }.respond r) := by
  have hmem : c ∈ h.calls := List.mem_of_getElem? hc
  have hset := Counting.countP_set (p := settled) (y := c') hc
  have hlost := Counting.countP_set (p := lost) (y := c') hc
  simp only [hs, hl, hl', Bool.toNat_true, Bool.toNat_false, Nat.add_right_cancel_iff] at hset hlost
  refine ⟨fun hp => ?_, fun hp => ?_, fun _ ha => ?_, fun hp => ?_⟩
  · exact absurd (begun_of_mem hmem) (w.not_begun (by tauto))
  · exact absurd (begun_of_mem hmem) (w.not_begun (by tauto))
  · show h.copyRequired = 0 - UInt32.ofNat ((h.calls.set i c').countP settled)
    rw [hset]
    exact hcnt.async (List.ne_nil_of_mem hmem) ha
  · show (r :: h.responses).length = (h.calls.set i c').countP lost + ownCount { h with
      calls := h.calls.set i c', rretry := r₁, wretry := r₂, responses := r :: h.responses }
    rw [ownCount_set hc hs, List.length_cons, hcnt.total hp, hlost]
    omega

theorem Answers.counted {limit : UInt16} {active again : Bool} {res : Except String Bool}
    (m : Answers limit active h i c res h' again) (w : h.Wf) (hcnt : h.Counted)
    (hc : h.calls[i]? = some c) (hw : c.status = .waiting) : h'.Counted := by
  have hl : lost c = false := by rw [lost, hw]; rfl
  cases m with
  | answered => exact hcnt.settleCall hc hw rfl w
  | again => exact hcnt.setCall hc (by rfl) (by rfl)
  | dropped hb => exact hcnt.settleCall hc hw (by simp [settled, hb]) w
  | failed hb => exact hcnt.loseCall w hc (by simp [settled, hb, hw]) hl (by simp [lost, hb])

theorem init_counted (self : Address) (op : Op) : (init self op).Counted :=
  ⟨fun _ => rfl, by simp [init], fun hne => absurd rfl hne, by simp [init]⟩

/-- A handler that has ended and whose calls have completed has answered for each lost call, and
once more unless it waited for one of those. -/
theorem Counted.length_responses (hcnt : h.Counted) (w : h.Wf) (hp : h.pc = .done ∨ h.pc = .refused)
    (hcs : ∀ c ∈ h.calls, c.status = .answered ∨ c.status = .failed) :
    h.responses.length = h.calls.countP lost +
      if h.op.async = false ∧ 0 < h.calls.countP lost then 0 else 1 := by
  rcases hp with hp | hp
  · have hlost : h.calls.countP (!settled ·) = h.calls.countP lost := by
      refine List.countP_congr fun c hc => ?_
      rcases hcs c hc with hs | hs <;> simp [settled, lost, hs]
    have hpast : h.pastOwn = true := by
      unfold pastOwn
      split <;> simp [hp]
    rw [hcnt.total (.inr hp), ownCount, hlost, hpast]
    congr 1
    by_cases h1 : h.calls = [] ∨ h.op.async = true
    · have h2 : ¬ (h.op.async = false ∧ 0 < h.calls.countP lost) := by
        rcases h1 with h1 | h1 <;> simp [h1]
      rw [if_pos h1, if_neg h2]
      rfl
    · simp only [not_or, Bool.not_eq_true] at h1
      simp only [h1.1, h1.2, false_or, Bool.false_eq_true, if_false, true_and]
      split_ifs <;> omega
  · rw [hcnt.refused hp, (w.early (.inr (.inr (.inr hp)))).1]
    simp

/-! ## Lost calls -/

/-- The callback gives a call to a node of `whs` up. -/
def givesUp (limit : UInt16) (h : Handler) (c : Call) (res : Except String Bool) (active : Bool) :
    Bool :=
  !c.byRhs && !res.isOk && !(active && h.wretry + 1 ≤ limit)

theorem countP_lost_onReply {limit : UInt16} {active : Bool} {res : Except String Bool}
    (hc : h.calls[i]? = some c) (hw : c.status = .waiting) :
    (h.onReply limit i c res active).1.calls.countP lost =
      h.calls.countP lost + (h.givesUp limit c res active).toNat := by
  have hl : lost c = false := by rw [lost, hw]; rfl
  have hset : ∀ c', (h.calls.set i c').countP lost = h.calls.countP lost + (lost c').toNat := by
    intro c'
    have := Counting.countP_set (p := lost) (y := c') hc
    rw [hl] at this
    exact this
  cases res with
  | ok b =>
    rw [onReply, countDown_calls, hset]
    simp [lost, givesUp, Except.isOk, Except.toBool]
  | error e =>
    unfold onReply retryIncr
    cases hb : c.byRhs with
    | true =>
      cases active with
      | false => simp [hset, lost, givesUp, hb]
      | true =>
        simp only [if_true]
        split_ifs <;> simp [hset, lost, givesUp, hb, hw]
    | false =>
      cases active with
      | false => simp [hset, lost, givesUp, hb, Except.isOk, Except.toBool, respond]
      | true =>
        simp only [if_true, Bool.false_eq_true, if_false]
        split_ifs with hagain
        · simp_all [lost, givesUp]
        · rw [respond, hset, givesUp, Bool.eq_false_of_not_eq_true hagain, hb]
          simp [lost, Except.isOk, Except.toBool]

theorem Moves.countP_lost (m : Moves key s h s' h' o) (w : h.Wf) :
    h'.calls.countP lost = h.calls.countP lost := by
  have hprep : ∀ g : Handler, h.pc = .calc ∨ h.pc = .stamp ∨ h.pc = .apply →
      g.prepare.calls.countP lost = h.calls.countP lost := by
    intro g hp
    rw [(w.early (by tauto)).1, countP_unsent fun c hc => (prepare_settled g c hc).2]
    rfl
  cases m with
  | stampedSet hp => exact hprep _ (.inr (.inl hp))
  | casDone hp => exact hprep _ (.inr (.inr hp))
  | deleteDone hp | deleteElsewhere hp =>
    rw [respondIfAlone_calls]
    exact hprep _ (.inr (.inr hp))
  | send hp hi =>
    obtain ⟨c, hc, hu⟩ := findIdx_unsent hi
    rw [modify_sent hc]
    have := Counting.countP_set (p := lost) (y := { c with status := .waiting, attempt := 1 }) hc
    simp only [lost, hu] at this
    exact this
  | written | casSent => simp
  | _ => rfl

end Server.Handler

namespace Exchange

open Server

variable {hash : Bytes → UInt64} {self : Address} {cfg : StoreNet.Config} {e e' : Exchange}
  {a : Act}

/-- Where a manager answers a request once: `SetAutoReplace` changes nothing, and `ReplaceElection`
does not come to the double replace guard. -/
def answersOnce (m : Manager) : Request → Bool
  | .control (.setAutoReplace enable) => m.autoReplace = enable
  | .replaceElection true hsseed _ => !Managers.doubleReplaceGuard m hsseed
  | _ => true

/-- Where a request is to be answered once: a call to a node of `whs` is given up only if the
operation is not async and no other one has been, and the manager is in a state as above. -/
def AnswersOnce (cfg : StoreNet.Config) : Exchange → Act → Prop
  | .writing h, .reply i res active => ∀ c ∈ h.calls[i]?,
    h.givesUp (cfg.retryNum h.op) c res active = true →
      h.op.async = false ∧ h.calls.countP Handler.lost = 0
  | .arrived r, .manage m => answersOnce m r = true
  | _, _ => True

instance (cfg : StoreNet.Config) : ∀ e a, Decidable (AnswersOnce cfg e a)
  | .writing h, .reply i _ _ => inferInstanceAs (Decidable (∀ c ∈ h.calls[i]?, _))
  | .arrived _, .manage _ => inferInstanceAs (Decidable (_ = true))
  | .arrived _, .serve _ | .arrived _, .reply .. | .writing _, .serve _ | .writing _, .manage _
  | .ended _, _ => inferInstanceAs (Decidable True)

/-- What the handler knows of itself. -/
def Sound : Exchange → Prop
  | .writing h => h.Wf ∧ h.Counted
  | _ => True

/-- Nothing has been sent, or is on the way, that would be one response too many or too few. -/
def OneAhead : Exchange → Prop
  | .arrived _ => True
  | .writing h => h.calls.countP Handler.lost ≤ (!h.op.async).toNat
  | .ended sent => sent.length = 1

theorem length_readReply (key : DBKey) (st : State) : (readReply key st).length = 1 := by
  unfold readReply
  split <;> rfl

theorem length_onGet (self : Address) (key : DBKey) (st : State) :
    (onGet self key st).length = 1 := by
  unfold onGet
  split
  · rfl
  · exact length_readReply key st

theorem length_onGetIfModified (self : Address) (key : DBKey) (ifTime : ClockTime) (st : State) :
    (onGetIfModified self key ifTime st).length = 1 := by
  unfold onGetIfModified
  split
  · rfl
  · split_ifs
    · rfl
    · exact length_readReply key st

theorem length_control (m : Manager) (c : Control) :
    (m.control hash c).2.length = 1 ↔ answersOnce m (.control c) = true := by
  cases c with
  | setAutoReplace enable =>
    simp only [Manager.control, answersOnce, decide_eq_true_eq]
    cases m.autoReplace <;> cases enable <;> simp
  | createBackup suffix =>
    simp only [Manager.control]
    split_ifs <;> simp [answersOnce]
  | _ => simp [Manager.control, answersOnce]

theorem length_replyReplaceElection (m : Manager) (fromPartner : Bool) (hsseed : Seed)
    (adjustClock : UInt32) :
    (m.replyReplaceElection hash fromPartner hsseed adjustClock).2.length = 1 ↔
      answersOnce m (.replaceElection fromPartner hsseed adjustClock) = true := by
  cases fromPartner with
  | false => simp [Manager.replyReplaceElection, answersOnce]
  | true =>
    have hw : (m.clockUpdate adjustClock).whs = m.whs := rfl
    simp only [Manager.replyReplaceElection, Manager.onReplaceElection, if_true, answersOnce,
      Managers.doubleReplaceGuard, hw, Bool.not_eq_eq_eq_not, Bool.not_true, Bool.and_eq_false_iff,
      Bool.not_false, Bool.or_eq_true, decide_eq_true_eq, Bool.or_eq_false_iff,
      decide_eq_false_iff_not, ← not_or]
    split_ifs with h1 h2 h3
    · simp [h1]
    · simp [h1, h2]
    · simp [h2]
    · simp [h2]

theorem callback_eq {limit : UInt16} {h h' : Handler} {i : ℕ} {res : Except String Bool}
    {active : Bool} (hs : callback limit h i res active = some h') :
    ∃ c, h.calls[i]? = some c ∧ c.status = .waiting ∧ h' = (h.onReply limit i c res active).1 := by
  obtain ⟨c, hc, rfl⟩ := Option.map_eq_some_iff.1 hs
  obtain ⟨hc, hw⟩ := Option.filter_eq_some_iff.1 hc
  exact ⟨c, hc, of_decide_eq_true hw, rfl⟩

theorem sound_moves {h : Handler} (key : DBKey) (st : State) (w : h.Wf) (hcnt : h.Counted) :
    Sound (.writing (h.step key st).2.1) :=
  have m := Handler.step_moves key st h
  ⟨m.wf w, m.counted w hcnt⟩

theorem sound_step (he : e.Sound) (hs : step hash self cfg e a = some e') : e'.Sound := by
  unfold step at hs
  split at hs
  next => cases hs; trivial
  next => cases hs; trivial
  next op st =>
    cases hs
    exact sound_moves cfg.key st (Handler.init_wf self op) (Handler.init_counted self op)
  next => cases hs; trivial
  next => cases hs; trivial
  next => cases hs; trivial
  next h st =>
    cases hs
    exact sound_moves cfg.key st he.1 he.2
  next h i res active =>
    obtain ⟨h', hcb, rfl⟩ := Option.map_eq_some_iff.1 hs
    obtain ⟨c, hc, hw, rfl⟩ := callback_eq hcb
    have m := Handler.onReply_answers (cfg.retryNum h.op) h i c res active
    exact ⟨m.wf he.1 hc hw, m.counted he.1 he.2 hc hw⟩
  next => cases hs

theorem oneAhead_step (he : e.Sound) (hs : step hash self cfg e a = some e') :
    e'.OneAhead ↔ e.OneAhead ∧ AnswersOnce cfg e a := by
  unfold step at hs
  split at hs
  next =>
    cases hs
    exact ⟨fun _ => ⟨trivial, trivial⟩, fun _ => length_onGet _ _ _⟩
  next =>
    cases hs
    exact ⟨fun _ => ⟨trivial, trivial⟩, fun _ => length_onGetIfModified _ _ _ _⟩
  next op st =>
    cases hs
    refine ⟨fun _ => ⟨trivial, trivial⟩, fun _ => ?_⟩
    have m := Handler.step_moves cfg.key st (.init self op)
    rw [OneAhead, m.countP_lost (Handler.init_wf self op)]
    exact Nat.zero_le _
  next =>
    cases hs
    exact ⟨fun _ => ⟨trivial, trivial⟩, fun _ => rfl⟩
  next c m =>
    cases hs
    exact (length_control m c).trans (and_iff_right trivial).symm
  next fromPartner hsseed adjustClock m =>
    cases hs
    exact (length_replyReplaceElection m fromPartner hsseed adjustClock).trans
      (and_iff_right trivial).symm
  next h st =>
    cases hs
    have m := Handler.step_moves cfg.key st h
    rw [OneAhead, m.countP_lost he.1, (m.later he.1).op]
    exact ⟨fun h => ⟨h, trivial⟩, fun h => h.1⟩
  next h i res active =>
    obtain ⟨h', hcb, rfl⟩ := Option.map_eq_some_iff.1 hs
    obtain ⟨c, hc, hw, rfl⟩ := callback_eq hcb
    have m := Handler.onReply_answers (cfg.retryNum h.op) h i c res active
    simp only [OneAhead, AnswersOnce, Handler.countP_lost_onReply hc hw, (m.later hc).op, hc,
      Option.mem_some_iff, forall_eq']
    have hb := Bool.toNat_le (!h.op.async)
    cases h.givesUp (cfg.retryNum h.op) c res active with
    | false => simp
    | true =>
      cases h.op.async with
      | false =>
        simp only [Bool.toNat_true, Bool.not_false, true_and, true_imp_iff]
        omega
      | true => simp
  next => cases hs

theorem length_responses_iff (he : e.Sound) (hc : e.Complete) :
    e.responses.length = 1 ↔ e.OneAhead := by
  cases e with
  | arrived r => exact hc.elim
  | ended sent => exact Iff.rfl
  | writing h =>
    simp only [responses, List.length_map, he.2.length_responses he.1 hc.1 hc.2, OneAhead]
    cases ha : h.op.async with
    | true => simp
    | false =>
      simp only [true_and, Bool.not_false, Bool.toNat_true]
      split_ifs <;> omega

/-- A request is answered once, whatever comes back and in whatever order, if and only if every step
is one that leaves it so. -/
theorem oneResponse_iff {r : Request} {acts : List Act}
    (h : Machine.Run (step hash self cfg) Machine.Free (.arrived r) acts e) (hc : e.Complete) :
    e.responses.length = 1 ↔
      Machine.Run (step hash self cfg) (AnswersOnce cfg) (.arrived r) acts e := by
  have hsound : e.Sound := h.inv (fun _ _ _ he _ hs => sound_step he hs) trivial
  rw [length_responses_iff hsound hc,
    h.guard_iff (fun _ _ _ => sound_step) (fun _ _ _ => oneAhead_step) trivial]
  exact and_iff_right trivial

/-! A `Set` at server 1 that server 2 replicates. -/

section Sample

open Sample StoreNet

def setActs : List Act :=
  let st := emptyServer twoSeed twoSeed
  [.serve st, .serve st, .serve st, .serve st, .reply 0 (.ok true) true]

theorem setActs_complete :
    ((Machine.execIf (step zeroHash (svr 1) sampleCfg) (AnswersOnce sampleCfg)
      (.arrived (.write (.set ⟨entryVal, by decide⟩ false))) setActs).any (decide <| Complete ·)) =
        true := by
  decide +kernel

theorem setActs_oneResponse : ∃ e : Exchange,
    Machine.Run (step zeroHash (svr 1) sampleCfg) Machine.Free
      (.arrived (.write (.set ⟨entryVal, by decide⟩ false))) setActs e ∧
    e.Complete ∧ e.responses.length = 1 := by
  obtain ⟨e, he, hc⟩ := (Option.any_eq_true _ _).1 setActs_complete
  have hc := of_decide_eq_true hc
  have hrun := Machine.execIf_run he
  have hfree := hrun.mono fun _ _ _ => trivial
  exact ⟨e, hfree, hc, (oneResponse_iff hfree hc).2 hrun⟩

/-- Auto replacing is on, and is turned off: `false` is sent and then nil. -/
theorem twoResponses_setAutoReplace : ∃ e : Exchange,
    Machine.Run (step zeroHash (svr 1) sampleCfg) Machine.Free
      (.arrived (.control (.setAutoReplace false))) [.manage (pair.mgr true)] e ∧
    e.Complete ∧ e.responses = [.response (.bool false), .response .null] ∧
    e.responses.length ≠ 1 :=
  ⟨.ended [.response (.bool false), .response .null], Machine.exec_run rfl, trivial, rfl, by decide⟩

end Sample

end Exchange

end Kumofs
