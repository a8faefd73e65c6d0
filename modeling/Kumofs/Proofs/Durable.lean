import Kumofs.Proofs.Replace
import Kumofs.Proofs.Store

/-!
# An acknowledged write is held by its replicas

When a `Set` or `CAS` has told its clocktime to its client, the nodes it was replicated to hold an
entry that is not older, except those of `rhs` whose replication failed, since the callback counts
these as done. The coordinator does so once it has made its own write, which for a plain `Set` may
come after the response.
-/

namespace Kumofs.StoreNet

open Newest Server Storage

variable {cfg : Config} {s t : StoreNet} {a : Act} {C : Set ClockTime} {K : Address → Prop}

/-- What is known to have been written, on the servers of `K`, is there in this or a newer
version. -/
structure Durable (K : Address → Prop) (cfg : Config) (s : StoreNet) : Prop where
  answered : ∀ h ∈ s.handlers, ∀ c ∈ h.calls, c.status = .answered → K c.dest →
    AtLeast clocktimeOf (entry cfg s c.dest) h.ct
  replied : ∀ p b, (p, .ok b) ∈ s.replies → ∃ h c, s.handlers[p.handler]? = some h ∧
    h.calls[p.call]? = some c ∧ (K c.dest → AtLeast clocktimeOf (entry cfg s c.dest) h.ct)
  wrote : ∀ h ∈ s.handlers, h.wrote = true → K h.self →
    AtLeast clocktimeOf (entry cfg s h.self) h.ct

theorem Inv.ct_mem (inv : Inv C cfg s) {h : Handler} (hh : h ∈ s.handlers) (hb : h.Begun) :
    h.ct ∈ C :=
  inv.stamped h hh ((inv.wf h hh).stamped hb)

theorem Inv.landed_atLeast (inv : Inv C cfg s) (hC : StrictTotal C) (st : Steps cfg s a t)
    (hK : s.KeepsEntry cfg a) (hN : s.WritesNewer cfg a) {y : Address} {h : Handler}
    (hl : landing cfg s a = some (y, h)) : AtLeast clocktimeOf (entry cfg t y) h.ct := by
  rcases st.entry inv.wf inv.hasClocktime hK hN with ⟨z, g, hl', he⟩ | ⟨hn, -⟩
  · rw [hl] at hl'
    cases hl'
    rw [he, Function.update_self, ← h.clocktimeOf_rawVal]
    exact atLeast_put hC (inv.landed hl)
  · simp [hl] at hn

/-- A reply is an old one or that of the call that was handled, and an accepted one is that of a
value that was put. -/
theorem Steps.reply_origin (st : Steps cfg s a t) {p : Sending} {res : Except String Bool}
    (hp : (p, res) ∈ t.replies) : (p, res) ∈ s.replies ∨ ∃ h c, s.handlers[p.handler]? = some h ∧
      h.calls[p.call]? = some c ∧ (∀ b, res = .ok b → landing cfg s a = some (c.dest, h)) ∧
      ∀ e, res = .error e → checkReplicate c.dest cfg.key c.byRhs (s.srv c.dest) = .error e := by
  cases st with
  | @deliver k q h c x' r hq hh hc he =>
    rcases List.mem_append.1 hp with hp | hp
    · exact .inl hp
    · simp only [List.mem_singleton, Prod.mk.injEq] at hp
      obtain ⟨rfl, rfl⟩ := hp
      cases hck : checkReplicate c.dest cfg.key c.byRhs (s.srv c.dest) with
      | ok u =>
        obtain ⟨r, hr⟩ := Handler.replicate_ok (h := h) hck
        rw [← he] at hr
        cases hr
        exact .inr ⟨h, c, hh, hc, fun b hb => by simp [landing, hq, hh, hc, hck], by simp⟩
      | error e =>
        rw [Handler.replicate_refused hck] at he
        cases he
        exact .inr ⟨h, c, hh, hc, by simp, fun e he => by rw [hck]; cases he; rfl⟩
  | ignored | replied => exact .inl (List.mem_of_mem_eraseIdx hp)
  | _ => exact .inl hp

theorem Durable.step (d : Durable K cfg s) (inv : Inv C cfg s) (hC : StrictTotal C)
    (st : Steps cfg s a t) (hK : s.KeepsEntry cfg a) (hN : s.WritesNewer cfg a) :
    Durable K cfg t where
  answered h' hh' c hc hs hk := by
    obtain ⟨j, hj'⟩ := List.mem_iff_getElem?.1 hh'
    have old : ∀ h, s.handlers[j]? = some h → h'.ct = h.ct → c ∈ h.calls →
        AtLeast clocktimeOf (entry cfg t c.dest) h'.ct := by
      intro h hj hct hc
      have hm := List.mem_of_getElem? hj
      rw [hct]
      exact inv.put_atLeast hC st hK hN (inv.ct_mem hm (Handler.begun_of_mem hc))
        (d.answered h hm c hc hs hk)
    rcases st.origin hj' with ⟨x, op, rfl, -⟩ | ⟨h, hj, hcase⟩
    · simp [Handler.init] at hc
    rcases hcase with rfl | ⟨x', o, rfl, he⟩ | ⟨i, x, res, again, act, hx, hw, ha, hby⟩
    · exact old _ hj rfl hc
    · have m := Handler.moves_of_step he
      have hc := m.mem_of_over hc (.inl hs)
      have w := inv.wf h (List.mem_of_getElem? hj)
      exact old h hj ((m.later w).ct (Handler.begun_of_mem hc)) hc
    · have hb := Handler.begun_of_mem (List.mem_of_getElem? hx)
      have hct := (ha.later hx).ct hb
      rcases ha.answered_of_mem hw hc hs with hc | ⟨⟨b, hb'⟩, hd⟩
      · exact old h hj hct hc
      · obtain ⟨k, -, hk'⟩ := hby.resolve_left (by simp [hb'])
        obtain ⟨g, y, hg, hy, hat⟩ := d.replied _ b (hb' ▸ List.mem_of_getElem? hk')
        obtain rfl : h = g := Option.some.inj (hj.symm.trans hg)
        obtain rfl : x = y := Option.some.inj (hx.symm.trans hy)
        rw [hct, hd]
        exact inv.put_atLeast hC st hK hN (inv.ct_mem (List.mem_of_getElem? hj) hb)
          (hat (hd ▸ hk))
  replied p b hp := by
    rcases st.reply_origin hp with hp | ⟨h, c, hj, hc, hl, -⟩
    · obtain ⟨h, c, hj, hc, hat⟩ := d.replied p b hp
      have hb := Handler.begun_of_mem (List.mem_of_getElem? hc)
      obtain ⟨h', hj', l⟩ := st.later inv.wf hj
      obtain ⟨c', hc', hd, -⟩ := l.call hc
      refine ⟨h', c', hj', hc', fun hk => ?_⟩
      rw [hd] at hk ⊢
      rw [l.ct hb]
      exact inv.put_atLeast hC st hK hN (inv.ct_mem (List.mem_of_getElem? hj) hb) (hat hk)
    · have hb := Handler.begun_of_mem (List.mem_of_getElem? hc)
      obtain ⟨h', hj', l⟩ := st.later inv.wf hj
      obtain ⟨c', hc', hd, -⟩ := l.call hc
      refine ⟨h', c', hj', hc', fun _ => ?_⟩
      rw [hd, l.ct hb]
      exact inv.landed_atLeast hC st hK hN (hl b rfl)
  wrote h' hh' hw hk := by
    obtain ⟨j, hj'⟩ := List.mem_iff_getElem?.1 hh'
    rcases st.wrote_origin inv.wf hj' hw with ⟨h, hj, hwo, l⟩ | ⟨h, -, hl, hself, -, hct⟩
    · have hm := List.mem_of_getElem? hj
      rw [l.self, l.ct (.inr (.inl hwo))]
      exact inv.put_atLeast hC st hK hN (inv.ct_mem hm (.inr (.inl hwo)))
        (d.wrote h hm hwo (l.self ▸ hk))
    · rw [hself, hct]
      exact inv.landed_atLeast hC st hK hN hl

/-! ## Runs -/

/-- The clocktimes issued are of `C`, no local write of a `Set` or `CAS` overwrites an entry that
is not older, and the tombstone of the key is not collected. -/
def Orderly (C : Set ClockTime) (cfg : Config) (s : StoreNet) (a : Act) : Prop :=
  s.Issues C a ∧ s.WritesNewer cfg a ∧ s.KeepsEntry cfg a

instance (C : Set ClockTime) [DecidablePred (· ∈ C)] (cfg : Config) (s : StoreNet) (a : Act) :
    Decidable (s.Orderly C cfg a) := inferInstanceAs (Decidable (_ ∧ _ ∧ _))

/-- The entries that the servers start with have clocktimes of `C`. -/
def StampedEntries (C : Set ClockTime) (cfg : Config) (srv : Address → State) : Prop :=
  ∀ x e, (srv x).entry cfg.key = some e → valueClocktimeSize ≤ e.length ∧ clocktimeOf e ∈ C

theorem init_inv {srv : Address → State} (hE : StampedEntries C cfg srv) :
    Inv C cfg (init srv) where
  wf := by simp [init]
  stamped := by simp [init]
  hasClocktime x e he := (hE x e he).1
  entries x e he := (hE x e he).2

theorem init_durable {srv : Address → State} : Durable K cfg (init srv) where
  answered := by simp [init]
  replied := by simp [init]
  wrote := by simp [init]

theorem run_durable (hC : StrictTotal C) {srv : Address → State}
    (hE : StampedEntries C cfg srv) {as : List Act}
    (hrun : Machine.Run (step cfg) (Orderly C cfg) (init srv) as t) :
    Inv C cfg t ∧ Durable K cfg t := by
  refine Machine.Run.inv (I := fun s => Inv C cfg s ∧ Durable K cfg s)
    (fun s a t hs hg hst => ?_) hrun ⟨init_inv hE, init_durable⟩
  obtain ⟨hI, hN, hK⟩ := hg
  have st := step_steps hst
  exact ⟨hs.1.step st hK hN hI, hs.2.step hs.1 hC st hK hN⟩

/-- What the response of a `Set` or `CAS` with clocktime `ct` tells, from when it is sent on. -/
structure Held (cfg : Config) (s : StoreNet) (h : Handler) (ct : ClockTime) : Prop where
  whs : ∀ x ∈ h.reps.wrepto, AtLeast clocktimeOf (entry cfg s x) ct
  rhs : ∀ x ∈ h.reps.rrepto, AtLeast clocktimeOf (entry cfg s x) ct ∨
    ∃ c ∈ h.calls, c.dest = x ∧ c.byRhs = true ∧ c.status = .failed
  self : (∃ val, h.op = .cas val) ∨ h.pc = .done → AtLeast clocktimeOf (entry cfg s h.self) ct

theorem acknowledged_held (hC : StrictTotal C) {srv : Address → State}
    (hE : StampedEntries C cfg srv) {as : List Act}
    (hrun : Machine.Run (step cfg) (Orderly C cfg) (init srv) as t) {h : Handler}
    (hh : h ∈ t.handlers) (hop : h.op.isDelete = false) (ha : h.op.async = false)
    {ct : ClockTime} (hr : .clocktime ct ∈ h.responses) : t.Held cfg h ct := by
  obtain ⟨inv, d⟩ := run_durable (K := fun _ => True) hC hE hrun
  have w := inv.wf h hh
  obtain ⟨hb, hct, hset⟩ := w.acked _ hr rfl
  obtain rfl := hct ct rfl
  have answered : ∀ c ∈ h.calls, c.status = .answered →
      AtLeast clocktimeOf (entry cfg t c.dest) h.ct :=
    fun c hc hs => d.answered h hh c hc hs trivial
  refine ⟨fun x hx => ?_, fun x hx => ?_, fun hw => ?_⟩
  · obtain ⟨c, hc, rfl, hrhs⟩ := (Handler.call_of_mem (w.prepared hb)).1 hx
    have hs := hset ha c hc
    simp only [Handler.settled, hrhs, Bool.and_false, Bool.or_false, decide_eq_true_eq] at hs
    exact answered c hc hs
  · obtain ⟨c, hc, rfl, hrhs⟩ := (Handler.call_of_mem (w.prepared hb)).2 hx
    have hs := hset ha c hc
    simp only [Handler.settled, hrhs, Bool.and_true, Bool.or_eq_true, decide_eq_true_eq] at hs
    rcases hs with hs | hs
    · exact .inl (answered c hc hs)
    · exact .inr ⟨c, hc, rfl, hrhs, hs⟩
  · refine d.wrote h hh ?_ trivial
    rcases hw with hcas | hdone
    · exact w.casWrote hb hcas
    · cases hopc : h.op with
      | set val async => exact (w.setWrote ⟨val, async, hopc⟩).1 hdone
      | cas val => exact w.casWrote hb ⟨val, hopc⟩
      | delete async => simp [hopc, Op.isDelete] at hop

/-! Server 1 sets a key that server 2 replicates. -/

section Sample

open Sample

/-- A server with an empty database. -/
def emptyServer (ws rs : Seed) : State :=
  ⟨.ofSeed zeroHash ws, .ofSeed zeroHash rs, ⟨∅, [], 0, 100, 1000⟩, ⟨1, 1000⟩⟩

def sampleCfg : Config := ⟨⟨entryKey, meta_le_entryKey⟩, 0, 0⟩

/-- The first clocktimes of second 1000. -/
def ticks : List ClockTime := [.mk' 1 1000, .mk' 2 1000, .mk' 3 1000, .mk' 4 1000]

theorem strictTotal_ticks : StrictTotal {ct | ct ∈ ticks} where
  irrefl := show ∀ x ∈ ticks, ¬ x < x by decide
  trans := show ∀ x ∈ ticks, ∀ y ∈ ticks, ∀ z ∈ ticks, x < y → y < z → x < z by decide
  total := show ∀ x ∈ ticks, ∀ y ∈ ticks, x = y ∨ x < y ∨ y < x by decide

instance : DecidablePred (· ∈ {ct | ct ∈ ticks}) := fun ct =>
  inferInstanceAs (Decidable (ct ∈ ticks))

theorem hashSpaces_emptyServer (ws rs : Seed) :
    (emptyServer ws rs).whs = .ofSeed zeroHash ws ∧ (emptyServer ws rs).rhs = .ofSeed zeroHash rs :=
  ⟨rfl, rfl⟩

theorem entry_emptyServer (ws rs : Seed) : (emptyServer ws rs).entry sampleCfg.key = none := rfl

theorem stampedEntries_empty (ws rs : Seed) :
    StampedEntries {ct | ct ∈ ticks} sampleCfg fun _ => emptyServer ws rs := by
  intro x e he
  rw [entry_emptyServer] at he
  cases he

def setRun : List Act :=
  [.request (svr 1) (.set ⟨entryVal, meta_le_entryVal⟩ false), .step 0, .step 0, .step 0,
    .deliver 0,
    .step 0, .reply 0 true]

theorem setRun_acknowledged :
    ((Machine.execIf (step sampleCfg) (Orderly {ct | ct ∈ ticks} sampleCfg)
      (init fun _ => emptyServer twoSeed twoSeed) setRun).any fun t =>
        t.handlers.any fun h => h.op.isDelete = false ∧ h.op.async = false ∧
          svr 2 ∈ h.reps.wrepto ∧ .clocktime (.mk' 1 1000) ∈ h.responses) = true := by
  decide +kernel

theorem setRun_held : ∃ t : StoreNet,
    Machine.Run (step sampleCfg) (Orderly {ct | ct ∈ ticks} sampleCfg)
      (init fun _ => emptyServer twoSeed twoSeed) setRun t ∧
    ∃ h ∈ t.handlers, .clocktime (.mk' 1 1000) ∈ h.responses ∧ svr 2 ∈ h.reps.wrepto ∧
      t.Held sampleCfg h (.mk' 1 1000) := by
  obtain ⟨t, ht, hany⟩ := (Option.any_eq_true _ _).1 setRun_acknowledged
  obtain ⟨h, hh, hany⟩ := List.any_eq_true.1 hany
  obtain ⟨hop, ha, hx, hr⟩ := of_decide_eq_true hany
  have hrun := Machine.execIf_run ht
  exact ⟨t, hrun, h, hh, hr, hx,
    acknowledged_held strictTotal_ticks (stampedEntries_empty _ _) hrun hh hop ha hr⟩

/-- Every node that an acknowledged `Set` or `CAS` was for holds it. -/
def AcknowledgedEverywhere (cfg : Config) (s : StoreNet) : Prop :=
  ∀ h ∈ s.handlers, h.op.isDelete = false → h.op.async = false →
    ∀ ct, .clocktime ct ∈ h.responses → ∀ x ∈ h.self :: h.reps.wrepto ++ h.reps.rrepto,
      AtLeast clocktimeOf (entry cfg s x) ct

theorem not_acknowledgedEverywhere_of_none {cfg : Config} {s : StoreNet} {h : Handler}
    (hh : h ∈ s.handlers) (hop : h.op.isDelete = false) (ha : h.op.async = false)
    {ct : ClockTime} (hr : .clocktime ct ∈ h.responses) {x : Address}
    (hx : x ∈ h.self :: h.reps.wrepto ++ h.reps.rrepto) (hnone : entry cfg s x = none) :
    ¬ s.AcknowledgedEverywhere cfg := by
  intro hall
  obtain ⟨e, he, -⟩ := hall h hh hop ha ct hr x hx
  rw [hnone] at he
  cases he

/-- The old owner of the key is lost and the new one does without it. -/
def lostRun : List Act :=
  [.request (svr 1) (.set ⟨entryVal, meta_le_entryVal⟩ false), .step 0, .step 0, .step 0, .step 0,
    .fail 0 0 false]

theorem lostRun_acknowledged :
    ((Machine.execIf (step sampleCfg) (Orderly {ct | ct ∈ ticks} sampleCfg)
      (init fun _ => emptyServer (seedOf [1] (.mk' 2 1000)) (seedOf [2] (.mk' 1 1000)))
      lostRun).any fun t => entry sampleCfg t (svr 2) = none ∧
        t.handlers.any fun h => h.op.isDelete = false ∧ h.op.async = false ∧
          svr 2 ∈ h.reps.rrepto ∧ .clocktime (.mk' 1 1000) ∈ h.responses) = true := by
  decide +kernel

theorem not_acknowledgedEverywhere_lostRun : ∃ t : StoreNet,
    Machine.Run (step sampleCfg) (Orderly {ct | ct ∈ ticks} sampleCfg)
      (init fun _ => emptyServer (seedOf [1] (.mk' 2 1000)) (seedOf [2] (.mk' 1 1000)))
      lostRun t ∧ ¬ t.AcknowledgedEverywhere sampleCfg := by
  obtain ⟨t, ht, hany⟩ := (Option.any_eq_true _ _).1 lostRun_acknowledged
  obtain ⟨hnone, hany⟩ := of_decide_eq_true hany
  obtain ⟨h, hh, hany⟩ := List.any_eq_true.1 hany
  obtain ⟨hop, ha, hx, hr⟩ := of_decide_eq_true hany
  exact ⟨t, Machine.execIf_run ht,
    not_acknowledgedEverywhere_of_none hh hop ha hr (by simp [hx]) hnone⟩

/-- The replica answers before the coordinator has written. -/
def earlyRun : List Act :=
  [.request (svr 1) (.set ⟨entryVal, meta_le_entryVal⟩ false), .step 0, .step 0, .step 0,
    .deliver 0, .reply 0 true]

theorem earlyRun_acknowledged :
    ((Machine.execIf (step sampleCfg) (Orderly {ct | ct ∈ ticks} sampleCfg)
      (init fun _ => emptyServer twoSeed twoSeed) earlyRun).any fun t =>
        entry sampleCfg t (svr 1) = none ∧ t.handlers.any fun h => h.op.isDelete = false ∧
          h.op.async = false ∧ h.self = svr 1 ∧ .clocktime (.mk' 1 1000) ∈ h.responses) = true := by
  decide +kernel

theorem not_acknowledgedEverywhere_earlyRun : ∃ t : StoreNet,
    Machine.Run (step sampleCfg) (Orderly {ct | ct ∈ ticks} sampleCfg)
      (init fun _ => emptyServer twoSeed twoSeed) earlyRun t ∧
      ¬ t.AcknowledgedEverywhere sampleCfg := by
  obtain ⟨t, ht, hany⟩ := (Option.any_eq_true _ _).1 earlyRun_acknowledged
  obtain ⟨hnone, hany⟩ := of_decide_eq_true hany
  obtain ⟨h, hh, hany⟩ := List.any_eq_true.1 hany
  obtain ⟨hop, ha, hself, hr⟩ := of_decide_eq_true hany
  exact ⟨t, Machine.execIf_run ht,
    not_acknowledgedEverywhere_of_none hh hop ha hr (by simp [hself]) hnone⟩

end Sample

end Kumofs.StoreNet
