import Kumofs.Proofs.Durable

/-!
# Coordinator and replicas agree

While the hash spaces do not change and nothing fails, the nodes of a key hold the same entry once
every handler is done and every message handled, as long as each local write of the coordinator
overwrites an older entry: then every node has put the same values into a register that keeps the
newest. `Storage::set` does not compare, so without that a `Set` that takes its clocktime first
and writes last undoes a newer one on the coordinator alone.
-/

namespace Kumofs.StoreNet

open Newest Server Storage

variable {cfg : Config} {s t : StoreNet} {a : Act} {C : Set ClockTime} {hs : HashSpace}
  {e₀ : Option Bytes}

/-! ## Runs without failures -/

/-- A clocktime that is issued is not that of another handler or of the entry at the start. -/
def Fresh (e₀ : Option Bytes) (s : StoreNet) : Act → Prop
  | .step i => ∀ h ∈ s.handlers[i]?, h.pc = .stamp →
    (∀ g ∈ s.handlers, g.Stamped → g.ct ≠ (s.srv h.self).clock.clockIncrClocktime.1) ∧
      ∀ e ∈ e₀, clocktimeOf e ≠ (s.srv h.self).clock.clockIncrClocktime.1
  | _ => True

instance (h : Handler) : Decidable h.Stamped := inferInstanceAs (Decidable (_ ∨ _ ∨ _))

instance (e₀ : Option Bytes) (s : StoreNet) : (a : Act) → Decidable (s.Fresh e₀ a)
  | .step _ => by unfold Fresh; infer_instance
  | .request .. | .deliver .. | .reply .. | .fail .. | .clockUpdate .. | .time ..
  | .hashSpaces .. | .removeOther .. => isTrue trivial

def Faultless : Act → Prop
  | .fail .. | .hashSpaces .. => False
  | _ => True

instance : (a : Act) → Decidable (Faultless a)
  | .fail .. | .hashSpaces .. => isFalse id
  | .step .. | .request .. | .deliver .. | .reply .. | .clockUpdate .. | .time ..
  | .removeOther .. => isTrue trivial

/-- No failure, no change of a hash space, no collected tombstone, and clocktimes that are
different and ordered. -/
def Calm (C : Set ClockTime) (e₀ : Option Bytes) (cfg : Config) (s : StoreNet) (a : Act) : Prop :=
  Faultless a ∧ s.Issues C a ∧ s.Fresh e₀ a ∧ s.KeepsEntry cfg a

instance (C : Set ClockTime) [DecidablePred (· ∈ C)] (e₀ : Option Bytes) (cfg : Config)
    (s : StoreNet) (a : Act) : Decidable (Calm C e₀ cfg s a) :=
  inferInstanceAs (Decidable (_ ∧ _ ∧ _ ∧ _))

/-- Every handler is done and no message is left. -/
def Quiescent (s : StoreNet) : Prop :=
  (∀ h ∈ s.handlers, h.pc = .done ∨ h.pc = .refused) ∧ s.packets = [] ∧ s.replies = []

instance (s : StoreNet) : Decidable s.Quiescent := inferInstanceAs (Decidable (_ ∧ _ ∧ _))

/-- The nodes of the key hold the same entry. -/
def Agree (hs : HashSpace) (cfg : Config) (s : StoreNet) : Prop :=
  ∀ x ∈ hs.activeAssigned cfg.key.hash, ∀ y ∈ hs.activeAssigned cfg.key.hash,
    entry cfg s x = entry cfg s y

/-! ## What has been put where -/

def InFlight (s : StoreNet) (i j : ℕ) : Prop := ∃ p ∈ s.packets, p.handler = i ∧ p.call = j

/-- The entry of a node is the newest of the values put there: that at the start, that of a handler
which has written there or whose call to there has been handled, and none but those of handlers. -/
structure PutAt (e₀ : Option Bytes) (cfg : Config) (s : StoreNet) (x : Address)
    (S : Set Bytes) : Prop where
  newest : IsNewest clocktimeOf S (entry cfg s x)
  start : ∀ e, e₀ = some e → e ∈ S
  wrote : ∀ h ∈ s.handlers, h.wrote = true → h.self = x → h.rawVal ∈ S
  handled : ∀ i j h c, s.handlers[i]? = some h → h.calls[j]? = some c → c.dest = x →
    c.status ≠ .unsent → ¬ s.InFlight i j → h.rawVal ∈ S
  only : ∀ e ∈ S, e₀ = some e ∨ ∃ h ∈ s.handlers, h.Begun ∧ h.rawVal = e

structure Stable (C : Set ClockTime) (hs : HashSpace) (e₀ : Option Bytes) (cfg : Config)
    (s : StoreNet) : Prop where
  inv : Inv C cfg s
  start : ∀ e, e₀ = some e → clocktimeOf e ∈ C
  hashSpaces : ∀ x, (s.srv x).whs = hs ∧ (s.srv x).rhs = hs
  computed : ∀ h ∈ s.handlers, h.Computed →
    calcReplicators h.self hs hs cfg.key.hash = .ok h.reps
  distinct : ∀ (i j : ℕ) (h g : Handler), s.handlers[i]? = some h → s.handlers[j]? = some g →
    h.Stamped → g.Stamped → h.ct = g.ct → i = j
  fresh : ∀ h ∈ s.handlers, h.Stamped → ∀ e, e₀ = some e → clocktimeOf e ≠ h.ct
  accepted : ∀ p res, (p, res) ∈ s.replies → ∃ b, res = .ok b

theorem calcReplicators_same {self : Address} {k : UInt64} {reps : Replicators}
    (hr : calcReplicators self hs hs k = .ok reps) : reps.rrepto = [] ∧
      reps.wrepto = assignedActiveExcludeOne self hs k ∧ hs.empty = false := by
  unfold calcReplicators at hr
  split at hr
  next => cases hr
  next hc =>
    simp only [if_true, Except.ok.injEq] at hr
    subst hr
    refine ⟨rfl, rfl, ?_⟩
    unfold checkCoordinatorAssign at hc
    split_ifs at hc with he
    exact Bool.eq_false_of_not_eq_true he

theorem checkReplicatorAssign_ok {x : Address} {k : UInt64} (he : hs.empty = false)
    (hx : x ∈ hs.activeAssigned k) : checkReplicatorAssign x hs k = .ok () := by
  unfold checkReplicatorAssign
  obtain ⟨r, hr, ha, rfl⟩ := HashSpace.mem_activeAssigned.1 hx
  rw [if_neg (by simp [he]), if_pos]
  exact List.any_eq_true.2 ⟨r, hr, by simp [ha]⟩

/-- A replica accepts what it is sent. -/
theorem Stable.accepts (b : Stable C hs e₀ cfg s) {h : Handler} (hh : h ∈ s.handlers)
    {c : Call} (hc : c ∈ h.calls) :
    c.dest ∈ hs.activeAssigned cfg.key.hash ∧
      checkReplicate c.dest cfg.key c.byRhs (s.srv c.dest) = .ok () := by
  have w := b.inv.wf h hh
  have hb := Handler.begun_of_mem hc
  obtain ⟨hr, hw, he⟩ := calcReplicators_same (b.computed h hh (w.computed hb))
  have hd := Handler.dest_mem (w.prepared hb) hc
  have hx : c.dest ∈ hs.activeAssigned cfg.key.hash := by
    split_ifs at hd with hbr
    · rw [hr] at hd
      exact absurd hd List.not_mem_nil
    · rw [hw] at hd
      exact (mem_assignedActiveExcludeOne.1 hd).2
  refine ⟨hx, ?_⟩
  unfold checkReplicate
  rw [(b.hashSpaces c.dest).1, (b.hashSpaces c.dest).2, ite_self]
  exact checkReplicatorAssign_ok he hx

/-- A clocktime that a handler has now it had before, or it is the one issued. -/
theorem Steps.stamped_origin (st : Steps cfg s a t) {j : ℕ} {h' : Handler}
    (hj' : t.handlers[j]? = some h') (hst : h'.Stamped) :
    ∃ h, s.handlers[j]? = some h ∧ (h.Stamped ∧ h'.ct = h.ct ∨ a = .step j ∧ h.pc = .stamp ∧
      h'.ct = (s.srv h.self).clock.clockIncrClocktime.1) := by
  rcases st.origin hj' with ⟨x, op, rfl, -⟩ | ⟨h, hj, hcase⟩
  · simp [Handler.Stamped, Handler.init] at hst
  refine ⟨h, hj, ?_⟩
  rcases hcase with rfl | ⟨x', o, rfl, he⟩ | ⟨i, c, res, again, act, -, -, ha, -⟩
  · exact .inl ⟨hst, rfl⟩
  · have m := Handler.moves_of_step he
    exact (m.ct_of_stamped hst).imp_right fun hx => ⟨rfl, hx⟩
  · obtain ⟨c', n, rs, r₁, r₂, rfl, -⟩ := ha.eq
    exact .inl ⟨hst, rfl⟩

theorem Stable.computed_step (b : Stable C hs e₀ cfg s) (st : Steps cfg s a t) {h' : Handler}
    (hh' : h' ∈ t.handlers) (hc : h'.Computed) :
    calcReplicators h'.self hs hs cfg.key.hash = .ok h'.reps := by
  obtain ⟨j, hj'⟩ := List.mem_iff_getElem?.1 hh'
  rcases st.origin hj' with ⟨x, op, rfl, -⟩ | ⟨h, hj, hcase⟩
  · simp [Handler.Computed, Handler.init] at hc
  have hm := List.mem_of_getElem? hj
  rcases hcase with rfl | ⟨x', o, rfl, he⟩ | ⟨i, c, res, again, act, -, -, ha, -⟩
  · exact b.computed _ hm hc
  · have m := Handler.moves_of_step he
    rw [(m.later (b.inv.wf h hm)).self]
    rcases m.reps hc with ⟨hco, hre⟩ | ⟨-, hca⟩ | ⟨hco, -, -, hne, -⟩
    · rw [hre]
      exact b.computed h hm hco
    · rw [(b.hashSpaces h.self).1, (b.hashSpaces h.self).2] at hca
      exact hca
    · exact absurd (calcReplicators_same (b.computed h hm hco)).1 hne
  · obtain ⟨c', n, rs, r₁, r₂, rfl, -⟩ := ha.eq
    exact b.computed h hm hc

theorem Stable.step (b : Stable C hs e₀ cfg s) (st : Steps cfg s a t)
    (hg : Calm C e₀ cfg s a) (hN : s.WritesNewer cfg a) : Stable C hs e₀ cfg t := by
  obtain ⟨hf, hI, hF, hK⟩ := hg
  refine ⟨b.inv.step st hK hN hI, b.start, fun x => ?_, fun h' => b.computed_step st, ?_, ?_, ?_⟩
  · obtain ⟨hw, hr⟩ := st.hashSpaces_eq (by rintro y w r rfl; exact hf) x
    rw [hw, hr]
    exact b.hashSpaces x
  · intro i j h' g' hi' hj' hsh hsg hct
    obtain ⟨h, hi, hh⟩ := st.stamped_origin hi' hsh
    obtain ⟨g, hj, hgg⟩ := st.stamped_origin hj' hsg
    rcases hh with ⟨hsh, hch⟩ | ⟨rfl, hp, hch⟩ <;> rcases hgg with ⟨hsg, hcg⟩ | ⟨hji, hq, hcg⟩
    · exact b.distinct i j h g hi hj hsh hsg (by rw [← hch, ← hcg, hct])
    · subst hji
      exact absurd (by rw [← hch, ← hcg, hct]) ((hF g hj hq).1 h (List.mem_of_getElem? hi) hsh)
    · exact absurd (by rw [← hch, ← hcg, hct]) ((hF h hi hp).1 g (List.mem_of_getElem? hj) hsg)
    · simpa using hji
  · intro h' hh' hst e he
    obtain ⟨j, hj'⟩ := List.mem_iff_getElem?.1 hh'
    obtain ⟨h, hj, ⟨hsh, hch⟩ | ⟨rfl, hp, hch⟩⟩ := st.stamped_origin hj' hst
    · rw [hch]
      exact b.fresh h (List.mem_of_getElem? hj) hsh e he
    · rw [hch]
      exact (hF h hj hp).2 e he
  · intro p res hp
    rcases st.reply_origin hp with hp | ⟨h, c, hj, hc, -, herr⟩
    · exact b.accepted p res hp
    · cases res with
      | ok r => exact ⟨r, rfl⟩
      | error e =>
        have hck := (b.accepts (List.mem_of_getElem? hj) (List.mem_of_getElem? hc)).2
        rw [herr e rfl] at hck
        cases hck

/-- The handler whose value is put has come to its calls or has written. -/
theorem Steps.landed_begun (st : Steps cfg s a t) (hw : ∀ h ∈ s.handlers, h.Wf) {y : Address}
    {h : Handler} (hl : landing cfg s a = some (y, h)) :
    ∃ h' ∈ t.handlers, h'.Begun ∧ h'.rawVal = h.rawVal := by
  cases st with
  | @step i g h' x' o hg he =>
    simp only [landing, hg, Option.filter_some, Handler.lands] at hl
    split_ifs at hl with hlands
    · cases hl
      rw [← he] at hlands
      simp only [Bool.and_eq_true, Bool.not_eq_true'] at hlands
      have hi : (s.handlers.set i h')[i]? = some h' :=
        List.getElem?_set_self (List.getElem?_eq_some_iff.1 hg).1
      refine ⟨h', List.mem_of_getElem? hi, .inr (.inl hlands.1), ?_⟩
      rcases (Steps.step hg he).wrote_origin hw hi hlands.1 with ⟨g, hj, hwo, -⟩ |
        ⟨g, hj, -, -, hop, hct⟩
      · rw [Option.some.inj (hj.symm.trans hg), hlands.2] at hwo
        cases hwo
      · obtain rfl := Option.some.inj (hj.symm.trans hg)
        unfold Handler.rawVal
        rw [hop, hct]
    · cases hl
  | @deliver k p g c x' res hp hg hc he =>
    simp only [landing, hp, hg, hc, Option.bind_some, Option.filter_some] at hl
    split_ifs at hl
    · cases hl
      exact ⟨h, List.mem_of_getElem? hg, Handler.begun_of_mem (List.mem_of_getElem? hc),
        rfl⟩
    · cases hl
  | _ => cases hl

theorem Steps.inFlight (st : Steps cfg s a t) {i j : ℕ} (h : s.InFlight i j) : t.InFlight i j ∨
    ∃ k p, a = .deliver k ∧ s.packets[k]? = some p ∧ p.handler = i ∧ p.call = j := by
  obtain ⟨p, hp, hij⟩ := h
  cases st with
  | @deliver k q h c x' res hq hh hc he =>
    by_cases hpq : p = q
    · subst hpq
      exact .inr ⟨k, p, rfl, hq, hij⟩
    · refine .inl ⟨p, ?_, hij⟩
      obtain ⟨n, hn⟩ := List.mem_iff_getElem?.1 hp
      have hnk : n ≠ k := by
        rintro rfl
        exact hpq (Option.some.inj (hn.symm.trans hq))
      exact List.mem_eraseIdx_iff_getElem?.2 ⟨n, hnk, hn⟩
  | step | replied | failed => exact .inl ⟨p, List.mem_append_left _ hp, hij⟩
  | _ => exact .inl ⟨p, hp, hij⟩

/-- A call that has been sent was so before, or is in flight. -/
theorem Steps.sent_origin (st : Steps cfg s a t) (hw : ∀ h ∈ s.handlers, h.Wf)
    {i j : ℕ} {h' : Handler} {c' : Call} (hi : t.handlers[i]? = some h')
    (hj : h'.calls[j]? = some c') (hs : c'.status ≠ .unsent) :
    t.InFlight i j ∨ ∃ h c, s.handlers[i]? = some h ∧ h.calls[j]? = some c ∧ c.dest = c'.dest ∧
      c.status ≠ .unsent ∧ h'.rawVal = h.rawVal := by
  rcases st.origin hi with ⟨x, op, rfl, -⟩ | ⟨h, hh, hcase⟩
  · simp [Handler.init] at hj
  rcases hcase with rfl | ⟨x', o, rfl, he⟩ | ⟨k, c, res, again, act, hc, hwait, ha, -⟩
  · exact .inr ⟨h', c', hh, hj, rfl, hs, rfl⟩
  · have m := Handler.moves_of_step he
    rcases m.sent_of_getElem hj hs with hc | rfl
    · have hb := Handler.begun_of_mem (List.mem_of_getElem? hc)
      exact .inr ⟨h, c', hh, hc, rfl, hs,
        (m.later (hw h (List.mem_of_getElem? hh))).rawVal hb⟩
    · cases st with
      | step hg he' =>
        obtain rfl : h = _ := Option.some.inj (hh.symm.trans hg)
        rw [← he] at he'
        cases he'
        exact .inl ⟨⟨i, j, 1⟩, by simp, rfl, rfl⟩
  · have hb := Handler.begun_of_mem (List.mem_of_getElem? hc)
    have hv := (ha.later hc).rawVal hb
    obtain ⟨c₁, n, rs, r₁, r₂, rfl, hd, -⟩ := ha.eq
    simp only [List.getElem?_set] at hj
    split_ifs at hj with hkj hlt
    · subst hkj
      cases hj
      exact .inr ⟨h, c, hh, hc, hd.symm, by simp [hwait], hv⟩
    · exact .inr ⟨h, c', hh, hj, rfl, hs, hv⟩

/-- What lands on a server joins what was put there before, and the entry stays the newest. -/
theorem PutAt.landed {x : Address} {S : Set Bytes} (hS : PutAt e₀ cfg s x S)
    (b : Stable C hs e₀ cfg s) (hC : StrictTotal C) (st : Steps cfg s a t)
    (hK : s.KeepsEntry cfg a) (hN : s.WritesNewer cfg a) :
    ∃ S', IsNewest clocktimeOf S' (entry cfg t x) ∧ S ⊆ S' ∧
      (∀ h, landing cfg s a = some (x, h) → h.rawVal ∈ S') ∧
      ∀ e ∈ S', e ∈ S ∨ ∃ h, landing cfg s a = some (x, h) ∧ h.rawVal = e := by
  have inv := b.inv
  have hSC : ∀ e ∈ S, clocktimeOf e ∈ C := by
    intro e he
    rcases hS.only e he with he | ⟨h, hh, hb, rfl⟩
    · exact b.start e he
    · rw [h.clocktimeOf_rawVal]
      exact inv.ct_mem hh hb
  rcases st.entry inv.wf inv.hasClocktime hK hN with ⟨y, h, hl, he⟩ | ⟨hl, he⟩
  · by_cases hxy : x = y
    · subst hxy
      obtain ⟨hm, hst⟩ := landing_begun inv.wf hl
      refine ⟨insert h.rawVal S, ?_, Set.subset_insert _ _, fun g hgl => ?_, fun e hm => ?_⟩
      · rw [he, Function.update_self]
        refine hS.newest.put hC hSC (inv.landed hl) fun e hem heq => ?_
        rw [h.clocktimeOf_rawVal] at heq
        rcases hS.only e hem with he₀ | ⟨g, hgm, hgb, rfl⟩
        · exact absurd heq (b.fresh h hm hst e he₀)
        · rw [g.clocktimeOf_rawVal] at heq
          obtain ⟨i, hi⟩ := List.mem_iff_getElem?.1 hm
          obtain ⟨j, hj⟩ := List.mem_iff_getElem?.1 hgm
          obtain rfl := b.distinct i j h g hi hj hst ((inv.wf g hgm).stamped hgb) heq.symm
          rw [Option.some.inj (hi.symm.trans hj)]
      · rw [hl] at hgl
        cases hgl
        exact Set.mem_insert _ _
      · rcases Set.mem_insert_iff.1 hm with rfl | hm
        · exact .inr ⟨h, hl, rfl⟩
        · exact .inl hm
    · refine ⟨S, ?_, subset_rfl, fun g hgl => ?_, fun e hm => .inl hm⟩
      · rw [he, Function.update_of_ne hxy]
        exact hS.newest
      · rw [hl] at hgl
        cases hgl
        exact absurd rfl hxy
  · refine ⟨S, ?_, subset_rfl, fun g hgl => ?_, fun e hm => .inl hm⟩
    · rw [he]
      exact hS.newest
    · simp [hl] at hgl

theorem PutAt.step {x : Address} {S : Set Bytes} (hS : PutAt e₀ cfg s x S)
    (b : Stable C hs e₀ cfg s) (hC : StrictTotal C) (st : Steps cfg s a t)
    (hg : Calm C e₀ cfg s a) (hN : s.WritesNewer cfg a) : ∃ S', PutAt e₀ cfg t x S' := by
  obtain ⟨-, -, -, hK⟩ := hg
  have inv := b.inv
  obtain ⟨S', hnew, hsub, hins, honly⟩ := hS.landed b hC st hK hN
  refine ⟨S', hnew, fun e he => hsub (hS.start e he), fun h' hh' hw hx => ?_,
    fun i j h' c' hi hj hd hs hfl => ?_, fun e he => ?_⟩
  · obtain ⟨j, hj'⟩ := List.mem_iff_getElem?.1 hh'
    rcases st.wrote_origin inv.wf hj' hw with ⟨h, hj, hwo, l⟩ | ⟨h, -, hl, hself, hop, hct⟩
    · rw [l.rawVal (.inr (.inl hwo))]
      exact hsub (hS.wrote h (List.mem_of_getElem? hj) hwo (l.self ▸ hx))
    · have hv : h'.rawVal = h.rawVal := by
        unfold Handler.rawVal
        rw [hop, hct]
      rw [hv]
      exact hins h (by rw [hl, ← hself, hx])
  · rcases st.sent_origin inv.wf hi hj hs with hfl' | ⟨h, c, hh, hc, hd', hs', hv⟩
    · exact absurd hfl' hfl
    rw [hv]
    by_cases hfs : s.InFlight i j
    · rcases st.inFlight hfs with hft | ⟨k, p, rfl, hp, rfl, rfl⟩
      · exact absurd hft hfl
      · have hck := (b.accepts (List.mem_of_getElem? hh) (List.mem_of_getElem? hc)).2
        have hl : landing cfg s (.deliver k) = some (c.dest, h) := by
          simp [landing, hp, hh, hc, hck]
        rw [hd', hd] at hl
        exact hins h hl
    · exact hsub (hS.handled i j h c hh hc (hd'.trans hd) hs' hfs)
  · rcases honly e he with he | ⟨h, hl, rfl⟩
    · rcases hS.only e he with he | ⟨h, hh, hb, rfl⟩
      · exact .inl he
      · obtain ⟨j, hj⟩ := List.mem_iff_getElem?.1 hh
        obtain ⟨h', hj', l⟩ := st.later inv.wf hj
        exact .inr ⟨h', List.mem_of_getElem? hj', l.begun hb, l.rawVal hb⟩
    · obtain ⟨h', hh', hb, hv⟩ := st.landed_begun inv.wf hl
      exact .inr ⟨h', hh', hb, hv⟩

theorem Stable.wrote_of_begun (b : Stable C hs e₀ cfg s) {h : Handler} (hh : h ∈ s.handlers)
    (hb : h.Begun) (hd : h.pc = .done) : h.wrote = true := by
  have w := b.inv.wf h hh
  cases hop : h.op with
  | set val async => exact (w.setWrote ⟨val, async, hop⟩).1 hd
  | cas val => exact w.casWrote hb ⟨val, hop⟩
  | delete async =>
    rcases w.deleteWrote hb ⟨async, hop⟩ with hw | ⟨-, hne⟩
    · exact hw
    · exact absurd (calcReplicators_same (b.computed h hh (w.computed hb))).1 hne

/-- At the end a node of the key has got the value of every handler that has written. -/
theorem PutAt.eq_of_quiescent (b : Stable C hs e₀ cfg s) (hq : s.Quiescent) {x : Address}
    (hx : x ∈ hs.activeAssigned cfg.key.hash) {S : Set Bytes} (hS : PutAt e₀ cfg s x S) :
    S = {e | e₀ = some e ∨ ∃ h ∈ s.handlers, h.wrote = true ∧ h.rawVal = e} := by
  obtain ⟨hdone, hpk, -⟩ := hq
  have done : ∀ h ∈ s.handlers, h.Begun → h.pc = .done := by
    intro h hh hb
    rcases hdone h hh with hd | hr
    · exact hd
    · exact absurd hb ((b.inv.wf h hh).not_begun (.inr (.inr (.inr hr))))
  ext e
  constructor
  · intro he
    rcases hS.only e he with he | ⟨h, hh, hb, rfl⟩
    · exact .inl he
    · exact .inr ⟨h, hh, b.wrote_of_begun hh hb (done h hh hb), rfl⟩
  · rintro (he | ⟨h, hh, hw, rfl⟩)
    · exact hS.start e he
    have w := b.inv.wf h hh
    have hb : h.Begun := .inr (.inl hw)
    by_cases hxs : h.self = x
    · exact hS.wrote h hh hw hxs
    have hrep : x ∈ h.reps.wrepto := by
      rw [(calcReplicators_same (b.computed h hh (w.computed hb))).2.1]
      exact mem_assignedActiveExcludeOne.2 ⟨Ne.symm hxs, hx⟩
    obtain ⟨c, hc, hd, -⟩ := (Handler.call_of_mem (w.prepared hb)).1 hrep
    obtain ⟨i, hi⟩ := List.mem_iff_getElem?.1 hh
    obtain ⟨j, hj⟩ := List.mem_iff_getElem?.1 hc
    refine hS.handled i j h c hi hj hd (w.sent (done h hh hb) c hc) ?_
    rintro ⟨p, hp, -⟩
    simp [hpk] at hp

theorem agree_of_run (hC : StrictTotal C) {srv : Address → State}
    (hhs : ∀ x, (srv x).whs = hs ∧ (srv x).rhs = hs) (hE : StampedEntries C cfg srv)
    (he₀ : ∀ x ∈ hs.activeAssigned cfg.key.hash, (srv x).entry cfg.key = e₀)
    {as : List Act}
    (hrun : Machine.Run (step cfg) (fun s a => Calm C e₀ cfg s a ∧ s.WritesNewer cfg a)
      (init srv) as t) (hq : t.Quiescent) : t.Agree hs cfg := by
  intro x hx y hy
  have start : ∀ e, e₀ = some e → clocktimeOf e ∈ C := by
    intro e he
    exact (hE x e (by rw [he₀ x hx, he])).2
  have hinit : Stable C hs e₀ cfg (init srv) :=
    ⟨init_inv hE, start, hhs, by simp [init], by simp [init], by simp [init], by simp [init]⟩
  have hput : ∀ z ∈ hs.activeAssigned cfg.key.hash,
      PutAt e₀ cfg (init srv) z {e | e₀ = some e} := by
    intro z hz
    refine ⟨?_, fun e he => he, by simp [init], by simp [init], fun e he => .inl he⟩
    have hent : entry cfg (init srv) z = e₀ := he₀ z hz
    rw [hent]
    cases e₀ with
    | none => simp [IsNewest]
    | some e => exact ⟨rfl, fun x hx => .inl (by simpa using hx.symm)⟩
  obtain ⟨b, hS⟩ := Machine.Run.inv
    (I := fun s => Stable C hs e₀ cfg s ∧
      ∀ z ∈ hs.activeAssigned cfg.key.hash, ∃ S, PutAt e₀ cfg s z S)
    (fun s a t hs hgs hst => by
      obtain ⟨b, hS⟩ := hs
      obtain ⟨hg, hN⟩ := hgs
      have st := step_steps hst
      refine ⟨b.step st hg hN, fun z hz => ?_⟩
      obtain ⟨S, hS⟩ := hS z hz
      exact hS.step b hC st hg hN)
    hrun ⟨hinit, fun z hz => ⟨_, hput z hz⟩⟩
  obtain ⟨S, hSx⟩ := hS x hx
  obtain ⟨S', hSy⟩ := hS y hy
  obtain rfl : S = S' := (hSx.eq_of_quiescent b hq hx).trans (hSy.eq_of_quiescent b hq hy).symm
  refine hSx.newest.unique hC (fun e he => ?_) hSy.newest
  rcases hSx.only e he with he | ⟨h, hh, hb, rfl⟩
  · exact start e he
  · rw [h.clocktimeOf_rawVal]
    exact b.inv.ct_mem hh hb

/-! Server 1 handles two sets of a key that server 2 replicates. -/

section Sample

open Sample

def setOp (v : UInt8) : Op :=
  .set ⟨[0, 0, 0, 0, 0, 0, 0, 0, 0, 0, v], by simp [valueMetaSize, valueClocktimeSize]⟩ false

/-- Both take their clocktimes; then they write in that order. -/
def inOrderRun : List Act :=
  [.request (svr 1) (setOp 97), .request (svr 1) (setOp 98), .step 0, .step 1, .step 0, .step 1,
    .step 0, .step 0, .step 1, .step 1, .deliver 0, .deliver 0, .reply 0 true, .reply 0 true]

/-- The first to take its clocktime is the last to write. -/
def undoneRun : List Act :=
  [.request (svr 1) (setOp 97), .request (svr 1) (setOp 98), .step 0, .step 1, .step 0, .step 1,
    .step 1, .step 1, .step 0, .step 0, .deliver 0, .deliver 0, .reply 0 true, .reply 0 true]

theorem activeAssigned_twoSeed :
    (HashSpace.ofSeed zeroHash twoSeed).activeAssigned sampleCfg.key.hash = [svr 1, svr 2] := by
  decide +kernel

theorem inOrderRun_quiescent :
    ((Machine.execIf (step sampleCfg)
      (fun s a => Calm {ct | ct ∈ ticks} none sampleCfg s a ∧ s.WritesNewer sampleCfg a)
      (init fun _ => emptyServer twoSeed twoSeed) inOrderRun).any fun t =>
        t.Quiescent ∧ entry sampleCfg t (svr 1) ≠ none) = true := by
  decide +kernel

theorem inOrderRun_agree : ∃ t : StoreNet,
    Machine.Run (step sampleCfg)
      (fun s a => Calm {ct | ct ∈ ticks} none sampleCfg s a ∧ s.WritesNewer sampleCfg a)
      (init fun _ => emptyServer twoSeed twoSeed) inOrderRun t ∧
    t.Quiescent ∧ entry sampleCfg t (svr 1) ≠ none ∧
    t.Agree (.ofSeed zeroHash twoSeed) sampleCfg := by
  obtain ⟨t, ht, hany⟩ := (Option.any_eq_true _ _).1 inOrderRun_quiescent
  obtain ⟨hq, hne⟩ := of_decide_eq_true hany
  have hrun := Machine.execIf_run ht
  exact ⟨t, hrun, hq, hne, agree_of_run strictTotal_ticks
    (fun _ => hashSpaces_emptyServer twoSeed twoSeed) (stampedEntries_empty _ _)
    (fun _ _ => entry_emptyServer _ _) hrun hq⟩

theorem undoneRun_quiescent :
    ((Machine.execIf (step sampleCfg) (Calm {ct | ct ∈ ticks} none sampleCfg)
      (init fun _ => emptyServer twoSeed twoSeed) undoneRun).any fun t =>
        t.Quiescent ∧ entry sampleCfg t (svr 1) ≠ entry sampleCfg t (svr 2)) = true := by
  decide +kernel

theorem not_agree_undoneRun : ∃ t : StoreNet,
    Machine.Run (step sampleCfg) (Calm {ct | ct ∈ ticks} none sampleCfg)
      (init fun _ => emptyServer twoSeed twoSeed) undoneRun t ∧
    t.Quiescent ∧ ¬ t.Agree (.ofSeed zeroHash twoSeed) sampleCfg := by
  obtain ⟨t, ht, hany⟩ := (Option.any_eq_true _ _).1 undoneRun_quiescent
  obtain ⟨hq, hne⟩ := of_decide_eq_true hany
  refine ⟨t, Machine.execIf_run ht, hq, fun hall => hne (hall _ ?_ _ ?_)⟩
  · rw [activeAssigned_twoSeed]
    decide
  · rw [activeAssigned_twoSeed]
    decide

end Sample

end Kumofs.StoreNet
