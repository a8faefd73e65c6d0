import Kumofs.Proofs.Clocks
import Kumofs.Proofs.Durable
import Kumofs.Proofs.Replace
import Kumofs.System.Cluster

/-!
# The next clocktime is newer than what is stored

A server's own writes have clocks that it has left behind. What it receives need not: a
`ReplicateSet` leaves the clock level with the entry it stores, and a record of a stream does not
move the clock at all. Where the clock is past what is received, and the clocks keep out of a zone,
the next clocktime is newer than every entry.
-/

namespace Kumofs

open Machine Storage Server Clocks

namespace Server

variable {P : Bytes → Prop} {key : DBKey} {s s' : State} {h h' : Handler} {o : Option ℕ}
  {a : Address}

theorem AllVals.submitMessage {x : Storage} {f : Offer} (hx : AllVals P x.db) (hv : P f.val) :
    AllVals P (submitMessage x f).db := hx.update hv

theorem AllVals.replaceDelete {x : Storage} {hs : HashSpace} {now : ClockTime}
    (hx : AllVals P x.db) : AllVals P (replaceDelete a hs now x).db := by
  unfold Server.replaceDelete
  split_ifs
  · exact hx
  · exact hx.sweep.foldl_erase

theorem AllVals.replaceCopy {x : Storage} (a : Address) (src dst : HashSpace) (now : ClockTime)
    (hx : AllVals P x.db) : AllVals P (replaceCopy a src dst now x).1.db ∧
      ∀ f ∈ (replaceCopy a src dst now x).2, P f.val := by
  unfold Server.replaceCopy
  split_ifs
  · exact ⟨hx, fun f hf => absurd hf List.not_mem_nil⟩
  · refine ⟨hx.sweep, fun f hf => ?_⟩
    obtain ⟨⟨key, val⟩, hl, hf⟩ := List.mem_flatMap.1 hf
    obtain ⟨d, -, rfl⟩ := List.mem_map.1 hf
    exact hx.of_live hl

theorem AllVals.fullReplaceCopy {x : Storage} (dst : HashSpace) (now : ClockTime)
    (hx : AllVals P x.db) : AllVals P (fullReplaceCopy dst now x).1.db ∧
      ∀ f ∈ (fullReplaceCopy dst now x).2, P f.val := by
  refine ⟨hx.sweep, fun f hf => ?_⟩
  obtain ⟨⟨key, val⟩, hl, hf⟩ := List.mem_flatMap.1 hf
  obtain ⟨d, -, rfl⟩ := List.mem_map.1 hf
  exact hx.of_live hl

/-- A handler takes a clock, or leaves the clock and writes at most its own value. -/
theorem Handler.Moves.effect (m : Moves key s h s' h' o) :
    (h.pc = .stamp ∧ s' = { s with clock := s.clock.clockIncrClocktime.2 }) ∨
    (h.pc ≠ .stamp ∧ s'.clock = s.clock ∧ (s'.storage.db = s.storage.db ∨ h.Stamped ∧
      ∀ P : Bytes → Prop, AllVals P s.storage.db → P h.rawVal → AllVals P s'.storage.db)) := by
  have hremove : ∀ {async : Bool}, h.op = .delete async → ∀ P : Bytes → Prop,
      AllVals P s.storage.db → P h.rawVal →
        AllVals P (s.storage.remove key.raw h.ct).1.db := by
    intro async hop P hP hv
    unfold Handler.rawVal at hv
    rw [hop] at hv
    exact hP.remove hv
  cases m with
  | refused hp => exact .inr ⟨by simp [hp], rfl, .inl rfl⟩
  | computed hp => exact .inr ⟨by simp [hp], rfl, .inl rfl⟩
  | stampedSet hp => exact .inl ⟨hp, rfl⟩
  | stamped hp => exact .inl ⟨hp, rfl⟩
  | idle hp => exact .inr ⟨by simp [hp], rfl, .inl rfl⟩
  | casDone hp =>
    exact .inr ⟨by simp [hp], rfl, .inr ⟨.inl hp, fun P hP hv => hP.update hv⟩⟩
  | casFailed hp =>
    exact .inr ⟨by simp [hp], rfl, .inr ⟨.inl hp, fun P hP hv => hP.update hv⟩⟩
  | deleteDone hp hop => exact .inr ⟨by simp [hp], rfl, .inr ⟨.inl hp, hremove hop⟩⟩
  | deleteNothing hp hop => exact .inr ⟨by simp [hp], rfl, .inr ⟨.inl hp, hremove hop⟩⟩
  | deleteElsewhere hp hop => exact .inr ⟨by simp [hp], rfl, .inr ⟨.inl hp, hremove hop⟩⟩
  | send hp => exact .inr ⟨by simp [hp], rfl, .inl rfl⟩
  | written hp =>
    exact .inr ⟨by simp [hp], rfl, .inr ⟨.inr (.inl hp), fun P hP hv => hP.insert hv⟩⟩
  | casSent hp => exact .inr ⟨by simp [hp], rfl, .inl rfl⟩
  | deleteSent hp => exact .inr ⟨by simp [hp], rfl, .inl rfl⟩
  | ended hp => exact .inr ⟨by rcases hp with hp | hp <;> simp [hp], rfl, .inl rfl⟩

/-- The server's clock is past what it stores. -/
structure State.Ahead (k : Zone) (t : UInt32) (s : State) : Prop where
  time : s.clock.time = t
  zone : zone s.clock.clock ≠ k
  stored : AllVals (fun v => Behind k t (clocktimeOf v) s.clock.clock False) s.storage.db

variable {k : Zone} {t : UInt32}

theorem State.Ahead.setStorage (hs : s.Ahead k t) {x : Storage}
    (hx : AllVals (fun v => Behind k t (clocktimeOf v) s.clock.clock False) x.db) :
    State.Ahead k t { s with storage := x } := ⟨hs.time, hs.zone, hx⟩

theorem State.Ahead.setClock (hs : s.Ahead k t) {c : ClockLogic} (ht : c.time = t)
    (hz : Kumofs.zone c.clock ≠ k) (hle : clockLess c.clock s.clock.clock = false) :
    State.Ahead k t { s with clock := c } :=
  ⟨ht, hz, hs.stored.imp fun _ hv => hv.of_le hs.zone hz hle fun _ => id⟩

theorem State.Ahead.clockUpdate (hs : s.Ahead k t) {c : UInt32} (hc : Kumofs.zone c ≠ k) :
    State.Ahead k t { s with clock := s.clock.clockUpdate c } := by
  refine hs.setClock (ClockLogic.clockUpdate_time.trans hs.time) ?_
    ClockLogic.clockUpdate_not_less_self
  rcases ClockLogic.clockUpdate_eq (c := s.clock) (o := c) with he | he
  · rw [he]
    exact hs.zone
  · rw [he]
    exact hc

theorem State.Ahead.incr (hs : s.Ahead k t) (hz : Kumofs.zone (s.clock.clock + 1) ≠ k) :
    State.Ahead k t { s with clock := { s.clock with clock := s.clock.clock + 1 } } :=
  hs.setClock hs.time hz (clockLess_asymm (clockLess_succ hs.zone hz))

/-- A replica whose clock is past what it is sent. -/
theorem State.Ahead.replicate (hs : s.Ahead k t) {self : Address} {b : Bool}
    (hct : checkReplicate self key b s = .ok () → Behind k t h.ct s.clock.clock False) :
    (replicate self key s (h.message b)).1.Ahead k t ∧
      clockLess (replicate self key s (h.message b)).1.clock.clock s.clock.clock = false := by
  cases hc : checkReplicate self key b s with
  | error e =>
    rw [Handler.replicate_refused hc]
    exact ⟨hs, clockLess_irrefl _⟩
  | ok u =>
    have hb := hct hc
    have hclock := hs.clockUpdate hb.zone
    have hraw : Behind k t (clocktimeOf h.rawVal) (s.clock.clockUpdate h.ct.clock).clock False := by
      rw [h.clocktimeOf_rawVal]
      exact hb.of_le hs.zone hclock.zone ClockLogic.clockUpdate_not_less_self fun _ => id
    unfold Handler.rawVal at hraw
    unfold Handler.message
    split at hraw
    next =>
      simp only [Server.replicate, hc]
      exact ⟨hclock.setStorage (hclock.stored.update hraw), ClockLogic.clockUpdate_not_less_self⟩
    next =>
      simp only [Server.replicate, hc]
      exact ⟨hclock.setStorage (hclock.stored.update hraw), ClockLogic.clockUpdate_not_less_self⟩
    next =>
      simp only [Server.replicate, hc]
      exact ⟨hclock.setStorage (hclock.stored.remove hraw), ClockLogic.clockUpdate_not_less_self⟩

end Server

namespace Cluster

variable {s s' : Cluster} {a : Address} {x : State} {k : Zone} {t : UInt32} {act : Act}

theorem setSrv_self : (s.setSrv a x).srv a = x := Function.update_self ..

theorem setSrv_ne {a' : Address} (h : a' ≠ a) : (s.setSrv a x).srv a' = s.srv a' :=
  Function.update_of_ne h ..

/-- The clocks taken keep out of zone `k`, and a server that is sent an entry has left its clock
behind. -/
def Guard (k : Zone) (s : Cluster) : Act → Prop
  | .step i => ∀ h ∈ s.handlers[i]?, h.2.pc = .stamp → zone ((s.srv h.2.self).clock.clock + 1) ≠ k
  | .deliver i c => ∀ m ∈ s.sentCall i c,
    checkReplicate m.2.2.dest m.1 m.2.2.byRhs (s.srv m.2.2.dest) = .ok () →
      clockLess m.2.1.ct.clock (s.srv m.2.2.dest).clock.clock = true
  | .send a => zone ((s.srv a).clock.clock + 1) ≠ k
  | .submit j => ∀ f ∈ s.offers[j]?,
    clockLess (clocktimeOf f.val).clock (s.srv f.dest).clock.clock = true
  | _ => True

structure Inv (k : Zone) (t : UInt32) (s : Cluster) : Prop where
  srv : ∀ a, (s.srv a).Ahead k t
  wf : ∀ h ∈ s.handlers, h.2.Wf
  stamped : ∀ h ∈ s.handlers, h.2.Stamped →
    Behind k t h.2.ct (s.srv h.2.self).clock.clock False
  clocks : ∀ o ∈ s.clocks, zone o ≠ k
  offers : ∀ f ∈ s.offers, (clocktimeOf f.val).time = t ∧ zone (clocktimeOf f.val).clock ≠ k

theorem Inv.setSrv (h : Inv k t s) (hx : x.Ahead k t)
    (hle : clockLess x.clock.clock (s.srv a).clock.clock = false) : Inv k t (s.setSrv a x) := by
  refine ⟨fun a' => ?_, h.wf, fun g hg hst => ?_, h.clocks, h.offers⟩
  · by_cases ha : a' = a
    · subst ha
      rw [setSrv_self]
      exact hx
    · rw [setSrv_ne ha]
      exact h.srv a'
  · have hb := h.stamped g hg hst
    by_cases ha : g.2.self = a
    · rw [ha, setSrv_self]
      rw [ha] at hb
      exact hb.of_le (h.srv a).zone hx.zone hle fun _ => id
    · rw [setSrv_ne ha]
      exact hb

theorem Inv.setStorage (h : Inv k t s) {y : Storage}
    (hy : AllVals (fun v => Behind k t (clocktimeOf v) (s.srv a).clock.clock False) y.db) :
    Inv k t (s.setStorage a y) :=
  h.setSrv ((h.srv a).setStorage hy) (clockLess_irrefl _)

theorem Inv.addOffers (h : Inv k t s) {fs : List Offer}
    (hf : ∀ f ∈ fs, (clocktimeOf f.val).time = t ∧ zone (clocktimeOf f.val).clock ≠ k) :
    Inv k t { s with offers := s.offers ++ fs } := by
  refine ⟨h.srv, h.wf, h.stamped, h.clocks, fun f hm => ?_⟩
  rcases List.mem_append.1 hm with hm | hm
  · exact h.offers f hm
  · exact hf f hm

theorem Inv.setHandler (h : Inv k t s) {i : ℕ} {g : DBKey × Handler} (hw : g.2.Wf)
    (hst : g.2.Stamped → Behind k t g.2.ct (s.srv g.2.self).clock.clock False) :
    Inv k t { s with handlers := s.handlers.set i g } := by
  refine ⟨h.srv, fun g' hg' => ?_, fun g' hg' => ?_, h.clocks, h.offers⟩
  · rcases List.mem_or_eq_of_mem_set hg' with hg' | rfl
    · exact h.wf g' hg'
    · exact hw
  · rcases List.mem_or_eq_of_mem_set hg' with hg' | rfl
    · exact h.stamped g' hg'
    · exact hst

theorem Inv.step_step (h : Inv k t s) {i : ℕ} (hg : s.Guard k (.step i))
    (hs : s.step (.step i) = some s') : Inv k t s' := by
  obtain ⟨⟨key, g⟩, hi, rfl⟩ := Option.map_eq_some_iff.1 hs
  have hmem := List.mem_of_getElem? hi
  have hsrv := h.srv g.self
  have m := Handler.step_moves key (s.srv g.self) g
  have hself := (m.later (h.wf _ hmem)).self
  rcases m.effect with ⟨hp, he⟩ | ⟨hp, hclock, hst⟩
  · have hz := hg _ hi hp
    have hinv : Inv k t (s.setSrv g.self (g.step key (s.srv g.self)).1) := by
      rw [he]
      exact h.setSrv (hsrv.incr hz) (clockLess_asymm (clockLess_succ hsrv.zone hz))
    refine hinv.setHandler (m.wf (h.wf _ hmem)) fun hstamped => ?_
    rcases m.ct_of_stamped hstamped with ⟨hold, -⟩ | ⟨-, hct⟩
    · simp [Handler.Stamped, hp] at hold
    · rw [hct, hself, setSrv_self, he]
      have hcl : (s.srv g.self).clock.clockIncrClocktime.1.clock = (s.srv g.self).clock.clock :=
        ClockTime.clock_mk' ..
      exact ⟨(ClockTime.time_mk' ..).trans hsrv.time, hcl ▸ hsrv.zone,
        .inl (hcl ▸ clockLess_succ hsrv.zone hz)⟩
  · have hx : ((g.step key (s.srv g.self)).1).Ahead k t := by
      refine ⟨hclock ▸ hsrv.time, hclock ▸ hsrv.zone, ?_⟩
      rw [hclock]
      rcases hst with hdb | ⟨hstamped, hall⟩
      · rw [hdb]
        exact hsrv.stored
      · refine hall _ hsrv.stored ?_
        rw [g.clocktimeOf_rawVal]
        exact h.stamped _ hmem hstamped
    have hinv := h.setSrv hx (a := g.self) (by rw [hclock]; exact clockLess_irrefl _)
    refine hinv.setHandler (m.wf (h.wf _ hmem)) fun hstamped => ?_
    rcases m.ct_of_stamped hstamped with ⟨hold, hct⟩ | ⟨hp', -⟩
    · rw [hct, hself, setSrv_self, hclock]
      exact h.stamped _ hmem hold
    · exact absurd hp' hp

theorem sentCall_eq_some {i c : ℕ} {key : DBKey} {g : Handler} {call : Call}
    (h : s.sentCall i c = some (key, g, call)) :
    s.handlers[i]? = some (key, g) ∧ call ∈ g.calls := by
  unfold sentCall at h
  obtain ⟨⟨key', g'⟩, hi, h⟩ := Option.bind_eq_some_iff.1 h
  obtain ⟨call', hf, h⟩ := Option.map_eq_some_iff.1 h
  cases h
  exact ⟨hi, List.mem_of_getElem? (Option.filter_eq_some_iff.1 hf).1⟩

theorem Inv.step_deliver (h : Inv k t s) {i c : ℕ} (hg : s.Guard k (.deliver i c))
    (hs : s.step (.deliver i c) = some s') : Inv k t s' := by
  obtain ⟨⟨key, g, call⟩, hm, rfl⟩ := Option.map_eq_some_iff.1 hs
  obtain ⟨hi, hcall⟩ := sentCall_eq_some hm
  have hmem := List.mem_of_getElem? hi
  have hstamped : g.Stamped :=
    (h.wf _ hmem).stamped (Handler.begun_of_mem hcall)
  have hb := h.stamped _ hmem hstamped
  have hpast : checkReplicate call.dest key call.byRhs (s.srv call.dest) = .ok () →
      Behind k t g.ct (s.srv call.dest).clock.clock False :=
    fun hc => ⟨hb.time, hb.zone, .inl (hg (key, g, call) hm hc)⟩
  obtain ⟨hx, hle⟩ := (h.srv call.dest).replicate hpast
  exact h.setSrv hx hle

theorem Inv.step_submit (h : Inv k t s) {j : ℕ} (hg : s.Guard k (.submit j))
    (hs : s.step (.submit j) = some s') : Inv k t s' := by
  obtain ⟨f, hf, rfl⟩ := Option.map_eq_some_iff.1 hs
  obtain ⟨ht, hz⟩ := h.offers f (List.mem_of_getElem? hf)
  exact h.setStorage (AllVals.submitMessage (h.srv f.dest).stored ⟨ht, hz, .inl (hg f hf)⟩)

theorem Inv.of_step (h : Inv k t s) (hg : s.Guard k act) (hs : s.step act = some s') :
    Inv k t s' := by
  cases act with
  | request a key op =>
    simp only [step, Option.some.injEq] at hs
    subst hs
    refine ⟨h.srv, fun g hm => ?_, fun g hm => ?_, h.clocks, h.offers⟩
    · rcases List.mem_append.1 hm with hm | hm
      · exact h.wf g hm
      · rw [List.mem_singleton.1 hm]
        exact Handler.init_wf a op
    · rcases List.mem_append.1 hm with hm | hm
      · exact h.stamped g hm
      · rw [List.mem_singleton.1 hm]
        simp [Handler.Stamped, Handler.init]
  | step i => exact h.step_step hg hs
  | deliver i c => exact h.step_deliver hg hs
  | send a =>
    simp only [step, Option.some.injEq] at hs
    subst hs
    have hinv := h.setSrv (a := a) ((h.srv a).incr hg)
      (clockLess_asymm (clockLess_succ (h.srv a).zone hg))
    refine ⟨hinv.srv, h.wf, hinv.stamped, fun o ho => ?_, h.offers⟩
    rcases List.mem_append.1 ho with ho | ho
    · exact h.clocks o ho
    · rw [List.mem_singleton.1 ho]
      exact (h.srv a).zone
  | receive a j =>
    obtain ⟨o, ho, rfl⟩ := Option.map_eq_some_iff.1 hs
    exact h.setSrv ((h.srv a).clockUpdate (h.clocks o (List.mem_of_getElem? ho)))
      ClockLogic.clockUpdate_not_less_self
  | copy a src dst now =>
    simp only [step, Option.some.injEq] at hs
    subst hs
    obtain ⟨hdb, hoffers⟩ := AllVals.replaceCopy a src dst now (h.srv a).stored
    exact (h.setStorage hdb).addOffers fun f hf => ⟨(hoffers f hf).time, (hoffers f hf).zone⟩
  | fullCopy a dst now =>
    simp only [step, Option.some.injEq] at hs
    subst hs
    obtain ⟨hdb, hoffers⟩ := AllVals.fullReplaceCopy dst now (h.srv a).stored
    exact (h.setStorage hdb).addOffers fun f hf => ⟨(hoffers f hf).time, (hoffers f hf).zone⟩
  | submit j => exact h.step_submit hg hs
  | delete a hs' now =>
    simp only [step, Option.some.injEq] at hs
    subst hs
    exact h.setStorage (AllVals.replaceDelete (h.srv a).stored)
  | hashSpaces a whs rhs =>
    simp only [step, Option.some.injEq] at hs
    subst hs
    have hsrv := h.srv a
    exact h.setSrv ⟨hsrv.time, hsrv.zone, hsrv.stored⟩ (clockLess_irrefl _)

theorem Inv.init {srv : Address → State} (hz : ∀ a, zone (srv a).clock.clock ≠ k)
    (ht : ∀ a, (srv a).clock.time = t) (hdb : ∀ a, (srv a).storage.db = ∅) :
    Inv k t (Cluster.init srv) where
  srv a := by
    refine ⟨ht a, hz a, fun key val hl => ?_⟩
    rw [Cluster.init, hdb a, AList.lookup_empty] at hl
    cases hl
  wf _ hm := absurd hm List.not_mem_nil
  stamped _ hm := absurd hm List.not_mem_nil
  clocks _ hm := absurd hm List.not_mem_nil
  offers _ hm := absurd hm List.not_mem_nil

theorem Inv.dominates (h : Inv k t s) : s.Dominates := by
  intro a key val hl
  have hb := (h.srv a).stored key val hl
  have hlt := hb.lt id
  rw [← (h.srv a).time] at hlt
  exact hlt

/-- From empty databases and clocks of any values out of a zone at one time: where clocks keep out
of that zone, and every entry finds its receiver past it, the next clocktime of a server is always
newer than what it stores. -/
theorem dominates_of_run {srv : Address → State} (hz : ∀ a, zone (srv a).clock.clock ≠ k)
    (ht : ∀ a, (srv a).clock.time = t) (hdb : ∀ a, (srv a).storage.db = ∅) {as : List Act}
    (h : Run step (Guard k) (Cluster.init srv) as s) : s.Dominates :=
  (h.inv (fun _ _ _ hI hg hs => hI.of_step hg hs) (Inv.init hz ht hdb)).dominates

/-! Server 1 sets a key that server 2 replicates. -/

section Sample

open Sample

instance (k : Zone) (s : Cluster) : ∀ act, Decidable (s.Guard k act)
  | .step _ => inferInstanceAs (Decidable (∀ _ ∈ _, _ → _))
  | .deliver _ _ => inferInstanceAs (Decidable (∀ _ ∈ _, _ → _))
  | .send _ => inferInstanceAs (Decidable (_ ≠ _))
  | .submit _ => inferInstanceAs (Decidable (∀ _ ∈ _, _))
  | .request .. | .receive .. | .copy .. | .fullCopy .. | .delete .. | .hashSpaces .. =>
    inferInstanceAs (Decidable True)

/-- Two servers, the first at clock 5 and the other at clock `c`. -/
def twoServers (c : UInt32) (a : Address) : State :=
  { StoreNet.emptyServer twoSeed twoSeed with clock := ⟨if a = svr 1 then 5 else c, 1000⟩ }

def setRun : List Act :=
  [.request (svr 1) ⟨entryKey, meta_le_entryKey⟩ (.set ⟨entryVal, meta_le_entryVal⟩ false), .step 0,
    .step 0, .step 0, .deliver 0 0, .step 0]

theorem setRun_stored : ((execIf step (Guard .high) (Cluster.init (twoServers 9)) setRun).any
    fun s => decide ((s.srv (svr 2)).storage.db.lookup entryKey ≠ none)) = true := by
  decide +kernel

/-- A replica whose clock is 9 gets the entry of clock 5. -/
theorem setRun_dominates : ∃ s : Cluster,
    Run step (Guard .high) (Cluster.init (twoServers 9)) setRun s ∧
      (s.srv (svr 2)).storage.db.lookup entryKey ≠ none ∧ s.Dominates := by
  obtain ⟨s, hs, hp⟩ := (Option.any_eq_true _ _).1 setRun_stored
  have hr := execIf_run hs
  have hz : ∀ a, zone (twoServers 9 a).clock.clock ≠ .high := by
    intro a
    unfold twoServers
    split_ifs <;> decide
  have ht : ∀ a, (twoServers 9 a).clock.time = 1000 := fun _ => rfl
  have hdb : ∀ a, (twoServers 9 a).storage.db = ∅ := fun _ => rfl
  exact ⟨s, hr, of_decide_eq_true hp, dominates_of_run hz ht hdb hr⟩

/-- The entry of `entryKey` on server 2 is not older than the clocktime it would issue next. -/
def Lags (s : Cluster) : Bool :=
  ((s.srv (svr 2)).storage.db.lookup entryKey).any fun v =>
    !decide (clocktimeOf v < (s.srv (svr 2)).clock.clockIncrClocktime.1)

theorem Lags.not_dominates {s : Cluster} (h : s.Lags = true) : ¬ s.Dominates := by
  obtain ⟨v, hv, hlt⟩ := (Option.any_eq_true _ _).1 h
  intro hd
  simp only [Bool.not_eq_true', decide_eq_false_iff_not] at hlt
  exact hlt (hd (svr 2) entryKey v hv)

theorem setRun_lags :
    ((exec step (Cluster.init (twoServers 1)) setRun).any (·.Lags)) = true := by
  decide +kernel

/-- A replica whose clock is 1 gets it, and would issue the same clocktime next. -/
theorem setRun_not_dominates : ∃ s : Cluster,
    Run step Free (Cluster.init (twoServers 1)) setRun s ∧ ¬ s.Dominates := by
  obtain ⟨s, hs, hl⟩ := (Option.any_eq_true _ _).1 setRun_lags
  exact ⟨s, exec_run hs, Lags.not_dominates hl⟩

/-- Server 1 sets the key while it is alone, and copies it to server 2. -/
def streamRun : List Act :=
  [.hashSpaces (svr 1) (.ofSeed zeroHash oneSeed) (.ofSeed zeroHash oneSeed),
    .request (svr 1) ⟨entryKey, meta_le_entryKey⟩ (.set ⟨entryVal, meta_le_entryVal⟩ false), .step 0,
    .step 0, .step 0, .copy (svr 1) (.ofSeed zeroHash oneSeed) (.ofSeed zeroHash twoSeed) (.mk' 6 1000),
    .submit 0]

theorem streamRun_lags :
    ((exec step (Cluster.init (twoServers 1)) streamRun).any (·.Lags)) = true := by
  decide +kernel

/-- The record of a stream leaves the clock of its receiver behind. -/
theorem streamRun_not_dominates : ∃ s : Cluster,
    Run step Free (Cluster.init (twoServers 1)) streamRun s ∧ ¬ s.Dominates := by
  obtain ⟨s, hs, hl⟩ := (Option.any_eq_true _ _).1 streamRun_lags
  exact ⟨s, exec_run hs, Lags.not_dominates hl⟩

end Sample

end Cluster

end Kumofs
