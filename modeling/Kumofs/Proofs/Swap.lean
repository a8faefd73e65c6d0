import Kumofs.Proofs.Durable
import Kumofs.System.Swap

/-!
# When a `CAS` swaps

The comparison of a `CAS` is made where the database has an entry. Where there is none the value is
put without it, and reported as a success. Where there is one, the swap is made if the clocktimes
are equal, and no second one is made by the same clocktime as long as no clocktime comes back that
the key has had.
-/

namespace Kumofs

open Machine Storage Server

namespace Server.Handler

variable {key : DBKey} {s s' : State} {h h' : Handler} {o : Option ℕ} {val : DBValue}

/-! ## What a `CAS` answers -/

/-- A `CAS` answers false just when it is done and has not put its value, and an error only when it
is refused. -/
structure Reports (h : Handler) : Prop where
  failed : .bool false ∈ h.responses ↔ h.pc = .done ∧ h.wrote = false
  refused : ∀ e, .error e ∈ h.responses → h.pc = .refused

theorem Reports.init (a : Address) (op : Op) : (init a op).Reports :=
  ⟨by simp [Handler.init], by simp [Handler.init]⟩

theorem mem_respondIfAlone {r x : Response} (hx : x ∈ (h.respondIfAlone r).responses) :
    x = r ∨ x ∈ h.responses := by
  unfold respondIfAlone at hx
  split_ifs at hx
  · exact List.mem_cons.1 hx
  · exact .inr hx

theorem mem_countDown {r x : Response} (hx : x ∈ (h.countDown r).responses) :
    x = r ∨ x ∈ h.responses := by
  unfold countDown at hx
  simp only [] at hx
  split_ifs at hx
  · exact List.mem_cons.1 hx
  · exact .inr hx

/-- A handler that goes on, and has answered nothing more. -/
theorem Reports.goesOn (r : h.Reports) (hd : h.pc ≠ .done) (hr : h.pc ≠ .refused)
    (hresp : h'.responses = h.responses) (hd' : h'.pc ≠ .done) : h'.Reports := by
  refine ⟨⟨fun hm => ?_, fun hp => absurd hp.1 hd'⟩, fun e hm => ?_⟩
  · rw [hresp] at hm
    exact absurd (r.failed.1 hm).1 hd
  · rw [hresp] at hm
    exact absurd (r.refused e hm) hr

theorem Moves.reports (m : Moves key s h s' h' o) (w : h.Wf) (hop : h.op = .cas val)
    (r : h.Reports) : h'.Reports := by
  have hnot : h.pc ≠ .done → .bool false ∉ h.responses := fun hp hm => hp (r.failed.1 hm).1
  have hnone : h.pc ≠ .refused → ∀ e, .error e ∉ h.responses := fun hp e hm => hp (r.refused e hm)
  cases m with
  | refused hp hc =>
    have hf := hnot (by simp [hp])
    exact ⟨by simp [respond, hf], fun _ _ => rfl⟩
  | computed hp hc => exact r.goesOn (by simp [hp]) (by simp [hp]) rfl (by simp)
  | stampedSet hp hset => simp [hop] at hset
  | stamped hp hset => exact r.goesOn (by simp [hp]) (by simp [hp]) rfl (by simp)
  | idle hp hset => simp [hop] at hset
  | casDone hp hc hr =>
    exact r.goesOn (by simp [hp]) (by simp [hp]) rfl (by simp [prepare])
  | casFailed hp hc hr =>
    have hw := (w.early (.inr (.inr (.inl hp)))).2
    have he := hnone (by simp [hp])
    exact ⟨by simp [respond, hw], by simp [respond, he]⟩
  | deleteDone hp hdel => simp [hop] at hdel
  | deleteNothing hp hdel => simp [hop] at hdel
  | deleteElsewhere hp hdel => simp [hop] at hdel
  | send hp hi => exact r.goesOn (by simp [hp]) (by simp [hp]) rfl (by simp [hp])
  | written hp hi hset => simp [hop] at hset
  | casSent hp hi hc =>
    have hf := hnot (by simp [hp])
    have he := hnone (by simp [hp])
    have hw := w.casWrote (.inl hp) ⟨_, hop⟩
    have hmem : ∀ x, x ∈ (h.respondIfAlone (.clocktime h.ct)).responses →
        x = .clocktime h.ct ∨ x ∈ h.responses := fun x => mem_respondIfAlone
    refine ⟨⟨fun hm => ?_, fun hd => ?_⟩, fun e hm => ?_⟩
    · rcases hmem _ hm with hm | hm
      · cases hm
      · exact absurd hm hf
    · have hd : h.wrote = false := by simpa using hd.2
      rw [hw] at hd
      cases hd
    · rcases hmem _ hm with hm | hm
      · cases hm
      · exact absurd hm (he e)
  | deleteSent hp hi hdel => simp [hop] at hdel
  | ended hp => exact r

theorem subset_countDown {g : Handler} {r : Response} {rs : List Response}
    (hg : g.responses = rs) : rs ⊆ (g.countDown r).responses := by
  subst hg
  unfold countDown
  simp only []
  split_ifs
  · exact List.subset_cons_of_subset _ (List.Subset.refl _)
  · exact List.Subset.refl _

theorem lastResponse_cas (hop : h.op = .cas val) (c : Call) (res : Except String Bool) :
    h.lastResponse c res = .clocktime h.ct := by
  unfold lastResponse
  rw [hop]

/-- The retry objects count, and nothing else changes. -/
theorem retryIncr_eq (h : Handler) (active byRhs : Bool) (limit : UInt16) : ∃ r₁ r₂ again,
    (if active then h.retryIncr byRhs limit else (h, false)) =
      ({ h with rretry := r₁, wretry := r₂ }, again) := by
  unfold retryIncr
  split_ifs
  · exact ⟨_, _, _, rfl⟩
  · exact ⟨_, _, _, rfl⟩
  · exact ⟨_, _, _, rfl⟩

section Callback

variable {limit : UInt16} {i : ℕ} {c : Call} {res : Except String Bool} {active : Bool}

/-- A callback of a `CAS` answers with its clocktime or, when a call of whs is given up, with
null. -/
theorem mem_onReply (hop : h.op = .cas val) {x : Response}
    (hx : x ∈ (h.onReply limit i c res active).1.responses) :
    x ∈ h.responses ∨ x = .clocktime h.ct ∨ x = .null := by
  unfold onReply at hx
  cases res with
  | ok b =>
    simp only [lastResponse_cas hop] at hx
    rcases mem_countDown hx with hx | hx
    · exact .inr (.inl hx)
    · exact .inl hx
  | error e =>
    obtain ⟨r₁, r₂, again, hr⟩ := retryIncr_eq h active c.byRhs limit
    have hlast : ∀ g : Handler, g.op = h.op → g.ct = h.ct →
        g.lastResponse c (.error e) = .clocktime h.ct := fun g ho hc => by
      rw [lastResponse_cas (ho.trans hop), hc]
    simp only [hr] at hx
    cases again with
    | true => exact .inl hx
    | false =>
      simp only [Bool.false_eq_true, if_false] at hx
      split_ifs at hx
      · rcases mem_countDown hx with hx | hx
        · exact .inr (.inl (hx.trans (hlast _ rfl rfl)))
        · exact .inl hx
      · rcases List.mem_cons.1 hx with hx | hx
        · exact .inr (.inr hx)
        · exact .inl hx

theorem Answers.subset {again : Bool} (m : Answers limit active h i c res h' again) :
    h.responses ⊆ h'.responses := by
  cases m with
  | answered => exact subset_countDown rfl
  | again => exact List.Subset.refl _
  | dropped => exact subset_countDown rfl
  | failed => exact List.subset_cons_of_subset _ (List.Subset.refl _)

theorem onReply_same (h : Handler) (limit : UInt16) (i : ℕ) (c : Call) (res : Except String Bool)
    (active : Bool) : (h.onReply limit i c res active).1.pc = h.pc ∧
      (h.onReply limit i c res active).1.wrote = h.wrote ∧
      (h.onReply limit i c res active).1.op = h.op := by
  obtain ⟨c', n, rs, r₁, r₂, he, -⟩ := (onReply_answers limit h i c res active).eq
  rw [he]
  exact ⟨rfl, rfl, rfl⟩

theorem Reports.onReply (r : h.Reports) (hop : h.op = .cas val) :
    (h.onReply limit i c res active).1.Reports := by
  obtain ⟨hpc, hwrote, -⟩ := onReply_same h limit i c res active
  refine ⟨⟨fun hm => ?_, fun hd => ?_⟩, fun e hm => ?_⟩
  · rw [hpc, hwrote]
    rcases mem_onReply hop hm with hm | hm | hm
    · exact r.failed.1 hm
    · cases hm
    · cases hm
  · rw [hpc, hwrote] at hd
    exact (onReply_answers limit h i c res active).subset (r.failed.2 hd)
  · rw [hpc]
    rcases mem_onReply hop hm with hm | hm | hm
    · exact r.refused e hm
    · cases hm
    · cases hm

end Callback

/-! ## What it does to the entry -/

theorem Moves.entry_from (m : Moves key s h s' h' o) (w : h.Wf) {v : Bytes}
    (hv : s'.entry key = some v) : s.entry key = some v ∨
      (h'.wrote && !h.wrote) = true ∧ clocktimeOf v = h.ct ∧ valueClocktimeSize ≤ v.length := by
  have hearly : h.pc = .apply → h.wrote = false := fun hp =>
    (w.early (.inr (.inr (.inl hp)))).2
  unfold State.entry at hv ⊢
  cases m with
  | casDone hp hop hr =>
    refine .inr ⟨by simp [prepare, hearly hp], ?_⟩
    simp only [lookup_cas, hr, if_true, Option.some.injEq] at hv
    exact hv ▸ ⟨h.clocktimeOf_rawVal, h.length_rawVal⟩
  | casFailed hp hop hr =>
    simp only [lookup_cas, hr, Bool.false_eq_true, if_false] at hv
    exact .inl hv
  | deleteDone hp hop hr =>
    rcases lookup_of_remove hv with ⟨-, rfl⟩ | hv
    · exact .inr ⟨by simp [prepare, hearly hp], clocktimeOf_clocktimeTo h.ct,
        le_of_eq (length_clocktimeTo h.ct).symm⟩
    · exact .inl hv
  | deleteNothing hp hop hr => exact .inl (lookup_remove_false hr ▸ hv)
  | deleteElsewhere hp hop hr => exact .inl (lookup_remove_false hr ▸ hv)
  | written hp hi hop =>
    have hw : h.wrote = false := by
      by_contra hw
      have hd := (w.setWrote ⟨_, _, hop⟩).2 (by simpa using hw)
      simp [hp] at hd
    simp only [lookup_set, Option.some.injEq] at hv
    refine .inr ⟨by simp [hw], ?_⟩
    exact hv ▸ ⟨h.clocktimeOf_rawVal, h.length_rawVal⟩
  | refused | computed | stampedSet | stamped | idle | send | casSent | deleteSent | ended =>
    exact .inl hv

/-- The database step of a `CAS` on an entry. -/
theorem Moves.swap (m : Moves key s h s' h' o) (w : h.Wf) (hp : h.pc = .apply)
    (hop : h.op = .cas val) {e : Bytes} (he : s.entry key = some e)
    (hlen : valueClocktimeSize ≤ e.length) :
    (h'.wrote = true ↔ clocktimeOf e = val.clocktime) ∧
      (h'.pc = .send ∨ h'.pc = .done) ∧ (h'.wrote = false → h'.pc = .done) ∧
      (h'.wrote = true → s'.entry key = some h.rawVal) := by
  have hcas : (s.storage.cas key.raw h.rawVal val.clocktime).2 =
      decide (val.clocktime = clocktimeOf e) := by
    unfold Storage.cas
    simp only []
    rw [Db.update_snd, show s.storage.db.lookup key.raw = some e from he]
    simp only [Option.all_some, casproc]
    rw [if_neg (Nat.not_lt.2 hlen)]
  cases m with
  | casDone _ hop' hr =>
    obtain rfl : val = _ := Op.cas.inj (hop.symm.trans hop')
    have hl : (s.storage.cas key.raw h.rawVal val.clocktime).1.db.lookup key.raw =
        some h.rawVal := by
      rw [lookup_cas, if_pos hr]
    rw [hcas, decide_eq_true_eq] at hr
    exact ⟨by simp [prepare, hr], by simp [prepare], by simp [prepare], fun _ => hl⟩
  | casFailed _ hop' hr =>
    obtain rfl : val = _ := Op.cas.inj (hop.symm.trans hop')
    rw [hcas, decide_eq_false_iff_not] at hr
    have hw := (w.early (.inr (.inr (.inl hp)))).2
    exact ⟨by simp [respond, hw, Ne.symm hr], by simp, fun _ => rfl, by simp [respond, hw]⟩
  | idle _ hset => simp [hop] at hset
  | deleteDone _ hdel | deleteNothing _ hdel | deleteElsewhere _ hdel => simp [hop] at hdel
  | refused hp' | computed hp' | stampedSet hp' | stamped hp' | send hp' | written hp'
  | casSent hp' | deleteSent hp' | ended hp' => simp [hp] at hp'

/-- After it a `CAS` only sends and answers. -/
theorem Moves.swapped (m : Moves key s h s' h' o) (hop : h.op = .cas val)
    (hp : h.pc = .send ∨ h.pc = .done) : h'.wrote = h.wrote ∧ (h'.pc = .send ∨ h'.pc = .done) ∧
      (h.pc = .done → h'.pc = .done) := by
  cases m with
  | send hp' => exact ⟨rfl, hp, id⟩
  | casSent hp' => exact ⟨by simp, .inr rfl, fun _ => rfl⟩
  | ended hp' => exact ⟨rfl, hp, id⟩
  | written _ _ hset => simp [hop] at hset
  | deleteSent _ _ hdel => simp [hop] at hdel
  | refused hp' | computed hp' | stampedSet hp' | stamped hp' | idle hp' | casDone hp'
  | casFailed hp' | deleteDone hp' | deleteNothing hp' | deleteElsewhere hp' => simp [hp'] at hp

end Server.Handler

namespace Swapping

variable {cfg : StoreNet.Config} {s s' : Swapping} {act : Act} {a : Address} {x : State}

theorem entry_setSrv_self : (s.setSrv a x).entry cfg a = x.entry cfg.key := by
  unfold entry setSrv State.entry
  simp

theorem entry_setSrv_ne {a' : Address} (h : a' ≠ a) :
    (s.setSrv a x).entry cfg a' = s.entry cfg a' := by
  unfold entry setSrv
  simp only [Function.update_of_ne h]

/-! ## The handlers in a run -/

/-- What a step can make of a handler. -/
inductive Becomes (cfg : StoreNet.Config) (g : Handler) : Handler → Prop
  | moved {x x' : State} {g' : Handler} {o : Option ℕ} :
      Handler.Moves cfg.key x g x' g' o → Becomes cfg g g'
  | answered {c : ℕ} {call : Call} {res : Except String Bool} {active : Bool} :
      g.calls[c]? = some call → call.status = .waiting →
      Becomes cfg g (g.onReply (cfg.retryNum g.op) c call res active).1

theorem Becomes.wf {g g' : Handler} (b : Becomes cfg g g') (w : g.Wf) : g'.Wf := by
  cases b with
  | moved m => exact m.wf w
  | answered hc hst => exact (Handler.onReply_answers ..).wf w hc hst

theorem Becomes.op {g g' : Handler} (b : Becomes cfg g g') (w : g.Wf) : g'.op = g.op := by
  cases b with
  | moved m => exact (m.later w).op
  | answered => exact (Handler.onReply_same ..).2.2

theorem Becomes.reports {g g' : Handler} (b : Becomes cfg g g') (w : g.Wf) {val : DBValue}
    (hop : g.op = .cas val) (r : g.Reports) : g'.Reports := by
  cases b with
  | moved m => exact m.reports w hop r
  | answered => exact r.onReply hop

theorem step_handlers (hs : s.step cfg act = some s') : s'.handlers = s.handlers ∨
    (∃ a op, s'.handlers = s.handlers ++ [.init a op]) ∨
    ∃ i g g', s.handlers[i]? = some g ∧ Becomes cfg g g' ∧ s'.handlers = s.handlers.set i g' := by
  cases act with
  | request a op =>
    cases hs
    exact .inr (.inl ⟨a, op, rfl⟩)
  | step i =>
    obtain ⟨g, hi, rfl⟩ := Option.map_eq_some_iff.1 hs
    exact .inr (.inr ⟨i, g, _, hi, .moved (Handler.step_moves cfg.key (s.srv g.self) g), rfl⟩)
  | reply i c res active =>
    obtain ⟨g, hi, hs⟩ := Option.bind_eq_some_iff.1 hs
    obtain ⟨call, hc, rfl⟩ := Option.map_eq_some_iff.1 hs
    obtain ⟨hc, hst⟩ := Option.filter_eq_some_iff.1 hc
    exact .inr (.inr ⟨i, g, _, hi, .answered hc (by simpa using hst), rfl⟩)
  | removeOther a rawKey ct =>
    simp only [step] at hs
    split_ifs at hs with hk
    cases hs
    exact .inl rfl
  | clockUpdate | time | hashSpaces | forEach =>
    cases hs
    exact .inl rfl

/-- What holds of the handlers in every run. -/
structure Sane (s : Swapping) : Prop where
  wf : ∀ h ∈ s.handlers, h.Wf
  reports : ∀ h ∈ s.handlers, (∃ val, h.op = .cas val) → h.Reports

theorem Sane.init (cfg : StoreNet.Config) (srv : Address → State) :
    (Swapping.init cfg srv).Sane :=
  ⟨fun _ hm => absurd hm List.not_mem_nil, fun _ hm => absurd hm List.not_mem_nil⟩

theorem Sane.of_step (h : s.Sane) (hs : s.step cfg act = some s') : s'.Sane := by
  rcases step_handlers hs with he | ⟨a, op, he⟩ | ⟨i, g, g', hi, b, he⟩
  · exact ⟨he ▸ h.wf, he ▸ h.reports⟩
  · constructor
    · rw [he, List.forall_mem_append, List.forall_mem_singleton]
      exact ⟨h.wf, Handler.init_wf a op⟩
    · rw [he, List.forall_mem_append, List.forall_mem_singleton]
      exact ⟨h.reports, fun _ => .init a op⟩
  · have hmem := List.mem_of_getElem? hi
    have w := h.wf g hmem
    refine ⟨fun k hk => ?_, fun k hk => ?_⟩ <;> rw [he] at hk <;>
      rcases List.mem_or_eq_of_mem_set hk with hk | rfl
    · exact h.wf k hk
    · exact b.wf w
    · exact h.reports k hk
    · rintro ⟨val, hop⟩
      have hop : g.op = .cas val := b.op w ▸ hop
      exact b.reports w hop (h.reports g hmem ⟨val, hop⟩)

/-! ## The swaps in a run -/

/-- What a handler puts has a clocktime that the key has not had there, and a `CAS` finds an
entry. -/
def Guard (cfg : StoreNet.Config) (s : Swapping) : Act → Prop
  | .step i => ∀ h ∈ s.handlers[i]?,
    (h.lands cfg.key (s.srv h.self) = true → h.ct ∉ s.had h.self) ∧
      (h.pc = .apply → h.op matches .cas _ → s.entry cfg h.self ≠ none)
  | _ => True

instance (cfg : StoreNet.Config) (s : Swapping) : ∀ act, Decidable (s.Guard cfg act)
  | .step _ => by unfold Guard; infer_instance
  | .request .. | .reply .. | .clockUpdate .. | .time .. | .hashSpaces .. | .removeOther ..
  | .forEach .. => isTrue trivial

structure Inv (cfg : StoreNet.Config) (s : Swapping) : Prop where
  clocktime : ∀ a, HasClocktime (s.entry cfg a)
  had : ∀ a e, s.entry cfg a = some e → clocktimeOf e ∈ s.had a
  handler : ∀ w ∈ s.swaps, ∃ h, s.handlers[w.handler]? = some h ∧ (∃ val, h.op = .cas val) ∧
    h.wrote = w.applied ∧ (h.pc = .send ∨ h.pc = .done) ∧ (w.applied = false → h.pc = .done)
  applied_iff : ∀ w ∈ s.swaps,
    w.applied = true ↔ ∃ e, w.stored = some e ∧ clocktimeOf e = w.compare
  spent : ∀ w ∈ s.swaps, w.applied = true → w.compare ∈ s.had w.srv ∧
    ∀ e, s.entry cfg w.srv = some e → clocktimeOf e ≠ w.compare
  one : ∀ a c, (s.successes a c).length ≤ 1

/-- Steps that leave the handlers and take at most entries. -/
theorem Inv.of_entries (h : Inv cfg s) (hh : s'.handlers = s.handlers) (hs : s'.swaps = s.swaps)
    (hd : s'.had = s.had) (he : ∀ a v, s'.entry cfg a = some v → s.entry cfg a = some v) :
    Inv cfg s' where
  clocktime a e hl := h.clocktime a e (he a e hl)
  had a e hl := hd ▸ h.had a e (he a e hl)
  handler := by rw [hh, hs]; exact h.handler
  applied_iff := hs ▸ h.applied_iff
  spent w hw ha := by
    obtain ⟨hc, hne⟩ := h.spent w (hs ▸ hw) ha
    exact ⟨hd ▸ hc, fun e hl => hne e (he _ e hl)⟩
  one a c := by
    unfold successes
    rw [hs]
    exact h.one a c

theorem Inv.setSrv (h : Inv cfg s)
    (hx : ∀ v, x.entry cfg.key = some v → s.entry cfg a = some v) : Inv cfg (s.setSrv a x) := by
  refine h.of_entries rfl rfl rfl fun a' v hv => ?_
  by_cases ha : a' = a
  · subst ha
    rw [entry_setSrv_self] at hv
    exact hx v hv
  · rwa [entry_setSrv_ne ha] at hv

/-- A handler takes the place of one that it comes from. -/
theorem Inv.setHandler (h : Inv cfg s) {i : ℕ} {g g' : Handler} (hi : s.handlers[i]? = some g)
    (hop : g'.op = g.op)
    (hover : (∃ val, g.op = .cas val) → g.pc = .send ∨ g.pc = .done →
      g'.wrote = g.wrote ∧ (g'.pc = .send ∨ g'.pc = .done) ∧ (g.pc = .done → g'.pc = .done)) :
    Inv cfg { s with handlers := s.handlers.set i g' } where
  clocktime := h.clocktime
  had := h.had
  handler w hm := by
    obtain ⟨k, hk, hcas, hwrote, hpc, hdone⟩ := h.handler w hm
    by_cases hwi : i = w.handler
    · subst hwi
      obtain rfl : g = k := Option.some.inj (hi.symm.trans hk)
      obtain ⟨hwrote', hpc', hdone'⟩ := hover hcas hpc
      refine ⟨g', ?_, hop ▸ hcas, hwrote'.trans hwrote, hpc', fun ha => hdone' (hdone ha)⟩
      rw [List.getElem?_set_self (List.getElem?_eq_some_iff.1 hi).1]
    · refine ⟨k, ?_, hcas, hwrote, hpc, hdone⟩
      simp only []
      rw [List.getElem?_set_ne hwi]
      exact hk
  applied_iff := h.applied_iff
  spent := h.spent
  one := h.one

theorem Inv.addSwap (h : Inv cfg s) {w : Swap}
    (hh : ∃ g, s.handlers[w.handler]? = some g ∧ (∃ val, g.op = .cas val) ∧ g.wrote = w.applied ∧
      (g.pc = .send ∨ g.pc = .done) ∧ (w.applied = false → g.pc = .done))
    (ha : w.applied = true ↔ ∃ e, w.stored = some e ∧ clocktimeOf e = w.compare)
    (hs : w.applied = true → w.compare ∈ s.had w.srv ∧
      ∀ e, s.entry cfg w.srv = some e → clocktimeOf e ≠ w.compare)
    (hone : w.applied = true → s.successes w.srv w.compare = []) :
    Inv cfg { s with swaps := s.swaps ++ [w] } where
  clocktime := h.clocktime
  had := h.had
  handler := List.forall_mem_append.2 ⟨h.handler, List.forall_mem_singleton.2 hh⟩
  applied_iff := List.forall_mem_append.2 ⟨h.applied_iff, List.forall_mem_singleton.2 ha⟩
  spent := List.forall_mem_append.2 ⟨h.spent, List.forall_mem_singleton.2 hs⟩
  one a c := by
    have hold := h.one a c
    unfold successes at hold hone ⊢
    simp only [List.filter_append, List.length_append]
    by_cases hw : (w.applied && decide (w.srv = a) && decide (w.compare = c)) = true
    · obtain ⟨⟨happ, rfl⟩, rfl⟩ := by simpa using hw
      rw [hone happ]
      simpa using List.length_filter_le _ [w]
    · have hnil : [w].filter (fun w => w.applied && decide (w.srv = a) && decide (w.compare = c)) =
          [] := List.filter_cons_of_neg hw
      rw [hnil]
      exact hold

/-- The server and the clocktimes the key has had, after a step of a handler. -/
theorem Inv.step_srv (h : Inv cfg s) {g : Handler} (w : g.Wf)
    (hfresh : g.lands cfg.key (s.srv g.self) = true → g.ct ∉ s.had g.self) :
    Inv cfg
      { s.setSrv g.self (g.step cfg.key (s.srv g.self)).1 with
        had := Function.update s.had g.self
          ((((g.step cfg.key (s.srv g.self)).1.storage.db.lookup cfg.key.raw).toList.map
            clocktimeOf) ++ s.had g.self) } := by
  have m := Handler.step_moves cfg.key (s.srv g.self) g
  have hfrom := fun v => m.entry_from w (v := v)
  refine ⟨fun a => ?_, fun a e he => ?_, h.handler, h.applied_iff, fun w hw ha => ?_, h.one⟩
  · by_cases ha : a = g.self
    · subst ha
      intro v hv
      rcases hfrom v (entry_setSrv_self.symm.trans hv) with hv | ⟨-, -, hlen⟩
      · exact h.clocktime _ v hv
      · exact hlen
    · exact fun v hv => h.clocktime a v ((entry_setSrv_ne ha).symm.trans hv)
  · by_cases ha : a = g.self
    · subst ha
      have he := entry_setSrv_self.symm.trans he
      unfold State.entry at he
      simp [he]
    · simp only [Function.update_of_ne ha]
      exact h.had a e ((entry_setSrv_ne ha).symm.trans he)
  · obtain ⟨hc, hne⟩ := h.spent w hw ha
    by_cases hws : w.srv = g.self
    · rw [hws] at hc hne
      refine ⟨?_, fun e he => ?_⟩
      · simp only [hws, Function.update_self]
        exact List.mem_append_right _ hc
      · rw [hws] at he
        rcases hfrom e (entry_setSrv_self.symm.trans he) with he | ⟨hlands, hct, -⟩
        · exact hne e he
        · rw [hct]
          exact fun hcc => hfresh hlands (hcc ▸ hc)
    · refine ⟨?_, fun e he => hne e ((entry_setSrv_ne hws).symm.trans he)⟩
      simp only [Function.update_of_ne hws]
      exact hc

theorem Inv.step_step (h : Inv cfg s) (hsane : s.Sane) {i : ℕ} (hgd : s.Guard cfg (.step i))
    (hs : s.step cfg (.step i) = some s') : Inv cfg s' := by
  obtain ⟨g, hi, rfl⟩ := Option.map_eq_some_iff.1 hs
  have w := hsane.wf g (List.mem_of_getElem? hi)
  have m := Handler.step_moves cfg.key (s.srv g.self) g
  obtain ⟨hfresh, hentry⟩ := hgd g hi
  have l := m.later w
  have hsrv := h.step_srv w hfresh
  have hset := hsrv.setHandler hi l.op fun ⟨_, hop⟩ hp => m.swapped hop hp
  simp only []
  unfold swapOf
  split
  next val hp hop =>
    obtain ⟨e, he⟩ := Option.ne_none_iff_exists'.1 (hentry hp (by rw [hop]))
    obtain ⟨hiff, hpc, hdone, hput⟩ := m.swap w hp hop he (h.clocktime g.self e he)
    have hold : clocktimeOf e ∈ s.had g.self := h.had g.self e he
    have hnew : (g.step cfg.key (s.srv g.self)).2.1.wrote = true → g.ct ∉ s.had g.self := by
      intro happ
      refine hfresh ?_
      unfold Handler.lands
      rw [happ, (w.early (.inr (.inr (.inl hp)))).2]
      rfl
    refine hset.addSwap ⟨_, ?_, ⟨val, l.op.trans hop⟩, rfl, hpc, hdone⟩ ?_ (fun happ => ?_)
      fun happ => ?_
    · exact List.getElem?_set_self (List.getElem?_eq_some_iff.1 hi).1
    · rw [hiff, he]
      simp
    · rw [← hiff.1 happ]
      refine ⟨?_, fun v hv => ?_⟩
      · simp only [Function.update_self]
        exact List.mem_append_right _ hold
      · have hv := (hput happ).symm.trans (entry_setSrv_self.symm.trans hv)
        rw [← Option.some.inj hv, g.clocktimeOf_rawVal]
        exact fun hct => hnew happ (hct ▸ hold)
    · refine List.filter_eq_nil_iff.2 fun v hv hsucc => ?_
      obtain ⟨⟨hva, hvs⟩, hvc⟩ := by simpa using hsucc
      refine (h.spent v hv hva).2 e (hvs ▸ he) ?_
      rw [hvc, hiff.1 happ]
  · rw [List.append_nil]
    exact hset

theorem Inv.of_step (h : Inv cfg s) (hsane : s.Sane) (hg : s.Guard cfg act)
    (hs : s.step cfg act = some s') : Inv cfg s' := by
  cases act with
  | request a op =>
    cases hs
    refine ⟨h.clocktime, h.had, fun w hw => ?_, h.applied_iff, h.spent, h.one⟩
    obtain ⟨g, hi, hrest⟩ := h.handler w hw
    exact ⟨g, by rw [List.getElem?_append_left (List.getElem?_eq_some_iff.1 hi).1, hi], hrest⟩
  | step i => exact h.step_step hsane hg hs
  | reply i c res active =>
    obtain ⟨g, hi, hs⟩ := Option.bind_eq_some_iff.1 hs
    obtain ⟨call, hc, rfl⟩ := Option.map_eq_some_iff.1 hs
    obtain ⟨hpc, hwrote, hop⟩ := Handler.onReply_same g (cfg.retryNum g.op) c call res active
    refine h.setHandler hi hop fun _ hp => ?_
    rw [hpc, hwrote]
    exact ⟨rfl, hp, id⟩
  | clockUpdate a c =>
    cases hs
    exact h.setSrv fun v hv => hv
  | time a t =>
    cases hs
    exact h.setSrv fun v hv => hv
  | hashSpaces a whs rhs =>
    cases hs
    exact h.setSrv fun v hv => hv
  | removeOther a rawKey ct =>
    simp only [step] at hs
    split_ifs at hs with hk
    cases hs
    refine h.setSrv fun v hv => ?_
    rcases lookup_of_remove hv with ⟨hkey, -⟩ | hv
    · exact absurd hkey.symm hk
    · exact hv
  | forEach a now =>
    cases hs
    exact h.setSrv fun v hv => lookup_of_sweep hv

theorem Inv.isSwap (h : Inv cfg s) (hsane : s.Sane) : s.IsSwap where
  applied_iff := h.applied_iff
  one := h.one
  reported w hw := by
    obtain ⟨g, hi, hcas, hwrote, hpc, hdone⟩ := h.handler w hw
    have hmem := List.mem_of_getElem? hi
    refine ⟨g, hi, ?_, fun ct hm => ?_⟩
    · rw [(hsane.reports g hmem hcas).failed, hwrote]
      exact ⟨fun hd => hd.2, fun ha => ⟨hdone ha, ha⟩⟩
    · have w := hsane.wf g hmem
      have hbegun := (w.acked _ hm rfl).1
      rw [← hwrote]
      exact w.casWrote hbegun hcas

/-- In runs in which every `CAS` finds an entry, and every clocktime that is put is one that the
key has not had on that server, a `CAS` is a compare-and-swap. -/
theorem isSwap_of_run {srv : Address → State}
    (hsrv : ∀ a, HasClocktime ((srv a).storage.db.lookup cfg.key.raw)) {acts : List Act}
    (h : Run (step cfg) (Guard cfg) (Swapping.init cfg srv) acts s) : s.IsSwap := by
  have hinit : Inv cfg (Swapping.init cfg srv) := by
    refine ⟨hsrv, fun a e he => ?_, fun _ hm => absurd hm List.not_mem_nil,
      fun _ hm => absurd hm List.not_mem_nil, fun _ hm => absurd hm List.not_mem_nil,
      fun _ _ => Nat.zero_le _⟩
    have he : (srv a).storage.db.lookup cfg.key.raw = some e := he
    simp [Swapping.init, he]
  -- what the handlers answer needs no guard, and the rest of the invariant uses it
  obtain ⟨hsane, hinv⟩ := h.inv (I := fun s => s.Sane ∧ Inv cfg s)
    (fun _ _ _ hI hg hs => ⟨hI.1.of_step hs, hI.2.of_step hI.1 hg hs⟩) ⟨.init cfg srv, hinit⟩
  exact hinv.isSwap hsane

/-! Server 1 is the only one. -/

section Sample

open Sample StoreNet

/-- A `Set`, and two `CAS` that compare with its clocktime. -/
def casRun : List Act :=
  [.request (svr 1) (.set ⟨entryVal, meta_le_entryVal⟩ false), .step 0, .step 0, .step 0,
    .request (svr 1) (.cas ⟨entryVal, meta_le_entryVal⟩),
    .request (svr 1) (.cas ⟨entryVal, meta_le_entryVal⟩),
    .step 1, .step 2, .step 1, .step 2, .step 1, .step 2, .step 1]

theorem casRun_swaps : ((execIf (step sampleCfg) (Guard sampleCfg)
    (Swapping.init sampleCfg fun _ => emptyServer oneSeed oneSeed) casRun).any fun s =>
      decide (s.swaps.map (·.applied) = [true, false])) = true := by
  decide +kernel

theorem casRun_isSwap : ∃ s : Swapping, Run (step sampleCfg) (Guard sampleCfg)
    (Swapping.init sampleCfg fun _ => emptyServer oneSeed oneSeed) casRun s ∧
      s.swaps.map (·.applied) = [true, false] ∧ s.IsSwap := by
  obtain ⟨s, hs, hw⟩ := (Option.any_eq_true _ _).1 casRun_swaps
  have hr := execIf_run hs
  exact ⟨s, hr, of_decide_eq_true hw, isSwap_of_run (fun _ _ he => by cases he) hr⟩

/-- A `CAS` of a key that is not there. -/
def absentRun : List Act :=
  [.request (svr 1) (.cas ⟨entryVal, meta_le_entryVal⟩), .step 0, .step 0, .step 0, .step 0]

theorem absentRun_swaps : ((exec (step sampleCfg)
    (Swapping.init sampleCfg fun _ => emptyServer oneSeed oneSeed) absentRun).any fun s =>
      s.swaps.any fun w => w.applied && decide (w.stored = none)) = true := by
  decide +kernel

/-- It puts its value. -/
theorem absentRun_not_isSwap : ∃ s : Swapping, Run (step sampleCfg) Free
    (Swapping.init sampleCfg fun _ => emptyServer oneSeed oneSeed) absentRun s ∧ ¬ s.IsSwap := by
  obtain ⟨s, hs, hany⟩ := (Option.any_eq_true _ _).1 absentRun_swaps
  obtain ⟨w, hw, happ⟩ := List.any_eq_true.1 hany
  rw [Bool.and_eq_true, decide_eq_true_eq] at happ
  refine ⟨s, exec_run hs, fun h => ?_⟩
  obtain ⟨e, he, -⟩ := (h.applied_iff w hw).1 happ.1
  rw [happ.2] at he
  cases he

end Sample

end Swapping

end Kumofs
