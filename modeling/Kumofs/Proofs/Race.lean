import Kumofs.Proofs.Durable
import Kumofs.System.Race

/-!
# Writes that race with a replace

An acknowledged write reaches the nodes of the key under the new hash space in one of two ways. A
handler that computed its replicas by the new one sends it there itself. One that computed them by
the old one writes at all the old owners, and the first of these that stays offers what it holds to
the rest; that carries the write only if it has arrived there when the scan passes the key. A
handler that computes its replicas before and writes after the scan is the one whose write is lost.
-/

namespace Kumofs

open Newest Server Storage

namespace Server.Handler

variable {key : DBKey} {s s' : State} {h h' : Handler} {o : Option ℕ} {f : Address}

/-- The handler will not write at `f` any more. -/
structure AtRest (f : Address) (h : Handler) : Prop where
  pc : h.pc = .send ∨ h.pc = .done
  self : h.self = f → h.pc = .done
  calls : ∀ c ∈ h.calls, c.dest = f → c.status = .answered ∨ c.status = .failed

instance (f : Address) (h : Handler) : Decidable (h.AtRest f) :=
  decidable_of_iff ((h.pc = .send ∨ h.pc = .done) ∧ (h.self = f → h.pc = .done) ∧
      ∀ c ∈ h.calls, c.dest = f → c.status = .answered ∨ c.status = .failed)
    ⟨fun ⟨a, b, c⟩ => ⟨a, b, c⟩, fun ⟨a, b, c⟩ => ⟨a, b, c⟩⟩

/-- The handler has written at `f`. -/
def Has (f : Address) (h : Handler) : Prop :=
  h.self = f ∧ h.wrote = true ∨ ∃ c ∈ h.calls, c.dest = f ∧ c.status = .answered

theorem AtRest.stamped (r : h.AtRest f) : h.Stamped := .inr r.pc

theorem AtRest.moves (r : h.AtRest f) (m : Moves key s h s' h' o) :
    h'.AtRest f ∧ (h'.Has f → h.Has f) ∧ h'.ct = h.ct := by
  have hcalc : h.pc ≠ .calc := by rcases r.pc with hp | hp <;> simp [hp]
  have hstamp : h.pc ≠ .stamp := by rcases r.pc with hp | hp <;> simp [hp]
  have happly : h.pc ≠ .apply := by rcases r.pc with hp | hp <;> simp [hp]
  have hself : h.pc = .send → h.self ≠ f := by
    intro hp hs
    simp [r.self hs] at hp
  cases m with
  | refused hp | computed hp => exact absurd hp hcalc
  | stampedSet hp | stamped hp => exact absurd hp hstamp
  | idle hp | casDone hp | casFailed hp | deleteDone hp | deleteNothing hp | deleteElsewhere hp =>
    exact absurd hp happly
  | @send i hp hi =>
    obtain ⟨c, hc, hu⟩ := findIdx_unsent hi
    have hcf : c.dest ≠ f := by
      intro hd
      simpa [hu] using r.calls c (List.mem_of_getElem? hc) hd
    have old : ∀ x ∈ h.calls.modify i (fun c => { c with status := .waiting, attempt := 1 }),
        x.dest = f → x ∈ h.calls := by
      intro x hx hd
      rw [modify_sent hc] at hx
      rcases List.mem_or_eq_of_mem_set hx with hx | rfl
      · exact hx
      · exact absurd hd hcf
    refine ⟨⟨.inl hp, fun hs => absurd hs (hself hp), fun x hx hd => r.calls x (old x hx hd) hd⟩,
      ?_, rfl⟩
    rintro (⟨hs, -⟩ | ⟨x, hx, hd, hst⟩)
    · exact absurd hs (hself hp)
    · exact .inr ⟨x, old x hx hd, hd, hst⟩
  | written hp =>
    refine ⟨⟨.inr rfl, fun _ => rfl, by simpa using r.calls⟩, ?_, by simp⟩
    rintro (⟨hs, -⟩ | ⟨x, hx, hd, hst⟩)
    · exact absurd (by simpa using hs) (hself hp)
    · exact .inr ⟨x, by simpa using hx, hd, hst⟩
  | casSent hp =>
    refine ⟨⟨.inr rfl, fun _ => rfl, by simpa using r.calls⟩, ?_, by simp⟩
    rintro (⟨hs, -⟩ | ⟨x, hx, hd, hst⟩)
    · exact absurd (by simpa using hs) (hself hp)
    · exact .inr ⟨x, by simpa using hx, hd, hst⟩
  | deleteSent hp => exact ⟨⟨.inr rfl, fun _ => rfl, r.calls⟩, fun h => h, rfl⟩
  | ended => exact ⟨r, fun h => h, rfl⟩

theorem AtRest.answers (r : h.AtRest f) {limit : UInt16} {active again : Bool} {i : ℕ} {c : Call}
    {res : Except String Bool} (m : Answers limit active h i c res h' again)
    (hc : h.calls[i]? = some c) (hw : c.status = .waiting) :
    h'.AtRest f ∧ (h'.Has f → h.Has f) ∧ h'.ct = h.ct := by
  obtain ⟨c', n, rs, r₁, r₂, rfl, hd', -, -⟩ := m.eq
  have old : ∀ x ∈ h.calls.set i c', x.dest = f → x ∈ h.calls := by
    intro x hx hd
    rcases List.mem_or_eq_of_mem_set hx with hx | rfl
    · exact hx
    · have := r.calls c (List.mem_of_getElem? hc) (hd' ▸ hd)
      simp [hw] at this
  refine ⟨⟨r.pc, r.self, fun x hx hd => r.calls x (old x hx hd) hd⟩, ?_, rfl⟩
  rintro (hs | ⟨x, hx, hd, hst⟩)
  · exact .inl hs
  · exact .inr ⟨x, old x hx hd, hd, hst⟩

end Server.Handler

namespace StoreNet

variable {cfg : Config} {s t : StoreNet} {C : Set ClockTime} {K K' : Address → Prop}

/-- Entries that change otherwise than by a step of the writers. -/
theorem Inv.of_entries (inv : Inv C cfg s) (hh : t.handlers = s.handlers)
    (he : ∀ x e, entry cfg t x = some e →
      entry cfg s x = some e ∨ valueClocktimeSize ≤ e.length ∧ clocktimeOf e ∈ C) :
    Inv C cfg t where
  wf := hh ▸ inv.wf
  stamped := hh ▸ inv.stamped
  hasClocktime x e hx := (he x e hx).elim (inv.hasClocktime x e) And.left
  entries x e hx := (he x e hx).elim (inv.entries x e) And.right

theorem Durable.of_entries (d : Durable K cfg s) (inv : Inv C cfg s)
    (hh : t.handlers = s.handlers) (hr : t.replies = s.replies) (hK : ∀ x, K' x → K x)
    (he : ∀ x u, K' x → u ∈ C → AtLeast clocktimeOf (entry cfg s x) u →
      AtLeast clocktimeOf (entry cfg t x) u) : Durable K' cfg t where
  answered h hm c hc hs hk := by
    rw [hh] at hm
    exact he _ _ hk (inv.ct_mem hm (Handler.begun_of_mem hc))
      (d.answered h hm c hc hs (hK _ hk))
  replied p b hp := by
    rw [hr] at hp
    obtain ⟨h, c, hj, hc, hat⟩ := d.replied p b hp
    have hb := Handler.begun_of_mem (List.mem_of_getElem? hc)
    rw [hh]
    exact ⟨h, c, hj, hc, fun hk => he _ _ hk (inv.ct_mem (List.mem_of_getElem? hj) hb)
      (hat (hK _ hk))⟩
  wrote h hm hw hk := by
    rw [hh] at hm
    exact he _ _ hk (inv.ct_mem hm (.inr (.inl hw))) (d.wrote h hm hw (hK _ hk))

end StoreNet

namespace Racing

open StoreNet

variable {cfg : Config} {src dst : HashSpace} {s t : Racing} {C : Set ClockTime} {f : Address}

/-- The nodes of the key under `dst` are among those the handler writes at. -/
def Covers (dst : HashSpace) (cfg : Config) (h : Handler) : Prop :=
  ∀ a ∈ dst.activeAssigned cfg.key.hash, a = h.self ∨ a ∈ h.reps.wrepto

instance (dst : HashSpace) (cfg : Config) (h : Handler) : Decidable (Covers dst cfg h) :=
  inferInstanceAs (Decidable (∀ a ∈ _, _))

/-! ## When no write is lost -/

/-- An asynchronous write whose replication by `whs` fails is tried again. -/
def KeepsTrying (cfg : Config) (h : Handler) (c : Call) (active : Bool) : Prop :=
  h.op.async = true → c.byRhs = false → c.status = .waiting →
    active = true ∧ h.wretry + 1 ≤ cfg.retryNum h.op

instance (cfg : Config) (h : Handler) (c : Call) (active : Bool) :
    Decidable (KeepsTrying cfg h c active) := inferInstanceAs (Decidable (_ → _ → _ → _))

/-- What a step of the writers must not do: give up an asynchronous replication, drop the replicas
of `whs` of a `Delete`, or compute replicas by `src` after the scan at `f`. -/
def KeepsWrites (cfg : Config) (f : Address) (s : Racing) : StoreNet.Act → Prop
  | .step i => ∀ h ∈ s.net.handlers[i]?,
    (h.pc = .apply → h.op.isDelete = true → h.reps.rrepto ≠ [] →
      ((s.net.srv h.self).storage.remove cfg.key.raw h.ct).2 = true) ∧
    (h.pc = .calc → f ∈ s.scanned →
      checkCoordinatorAssign h.self (s.net.srv h.self).whs cfg.key.hash matches .ok () →
      h.self ∈ s.switched)
  | .reply k active => ∀ r ∈ s.net.replies[k]?, r.2 matches .error _ →
    ∀ h ∈ s.net.handlers[r.1.handler]?, ∀ c ∈ h.calls[r.1.call]?, c.attempt = r.1.attempt →
      KeepsTrying cfg h c active
  | .fail i j active => ∀ h ∈ s.net.handlers[i]?, ∀ c ∈ h.calls[j]?, KeepsTrying cfg h c active
  | _ => True

instance (cfg : Config) (f : Address) (s : Racing) :
    (a : StoreNet.Act) → Decidable (s.KeepsWrites cfg f a)
  | .step _ | .reply .. | .fail .. => by unfold KeepsWrites; infer_instance
  | .request .. | .deliver .. | .clockUpdate .. | .time .. | .hashSpaces ..
  | .removeOther .. => isTrue trivial

/-- The scan at `n` leaves the entry of the key. -/
def KeepsScanned (cfg : Config) (s : Racing) (n : Address) (now : ClockTime) : Prop :=
  ((s.net.srv n).storage.sweep now).db.lookup cfg.key.raw =
    (s.net.srv n).storage.db.lookup cfg.key.raw

/-- When the scan at `f` passes the key, it does not find a tombstone, and every handler that
computed its replicas by `src` has made its write there. -/
def Arrived (cfg : Config) (dst : HashSpace) (f : Address) (s : Racing) : Prop :=
  (∀ e ∈ entry cfg s.net f, valueMetaSize ≤ e.length) ∧
    ∀ h ∈ s.net.handlers, h.Computed → Covers dst cfg h ∨ h.AtRest f

/-- The clocktimes are ordered, local writes overwrite older entries, and the tombstone of the key
is not collected. -/
def Plain (C : Set ClockTime) (cfg : Config) (s : Racing) : Act → Prop
  | .store a => s.net.Orderly C cfg a
  | .scan n now => s.KeepsScanned cfg n now
  | .delete n now => s.KeepsScanned cfg n now
  | .switch _ => True
  | .apply _ => True

/-- And no write misses the scan at `f`. -/
def Safe (C : Set ClockTime) (cfg : Config) (dst : HashSpace) (f : Address) (s : Racing)
    (a : Act) : Prop :=
  s.Plain C cfg a ∧ match a with
    | .store a => s.KeepsWrites cfg f a
    | .scan n _ => n = f → s.Arrived cfg dst f
    | _ => True

section decidable

variable (C : Set ClockTime) [DecidablePred (· ∈ C)] (cfg : Config) (dst : HashSpace)
  (f : Address) (s : Racing)

instance (h : Handler) : Decidable h.Computed := inferInstanceAs (Decidable (_ ∧ _))

instance (n : Address) (now : ClockTime) : Decidable (s.KeepsScanned cfg n now) :=
  inferInstanceAs (Decidable (_ = _))

instance : Decidable (s.Arrived cfg dst f) := inferInstanceAs (Decidable (_ ∧ _))

instance : (a : Act) → Decidable (s.Plain C cfg a)
  | .store _ | .scan .. | .delete .. => by unfold Plain; infer_instance
  | .switch _ | .apply _ => isTrue trivial

instance : (a : Act) → Decidable (s.Safe C cfg dst f a)
  | .store _ | .scan .. | .delete .. | .switch _ | .apply _ => by unfold Safe; infer_instance

end decidable

/-! ## The invariant -/

/-- A write of clocktime `ct` is at the nodes that are new to the key, or on its way there. -/
def Carried (cfg : Config) (src dst : HashSpace) (s : Racing) (ct : ClockTime) : Prop :=
  ∀ a ∈ newbies src dst cfg.key.hash, AtLeast clocktimeOf (entry cfg s.net a) ct ∨
    ∃ o ∈ s.pending, o.dest = a ∧ o.key = cfg.key.raw ∧ ¬ clocktimeOf o.val < ct

structure Inv (C : Set ClockTime) (cfg : Config) (src dst : HashSpace) (f : Address)
    (s : Racing) : Prop where
  base : StoreNet.Inv C cfg s.net
  durable : Durable
    (fun x => x ∈ dst.activeAssigned cfg.key.hash ∨ x = f ∧ f ∉ s.scanned) cfg s.net
  whs : ∀ n, (s.net.srv n).whs = if n ∈ s.switched then dst else src
  switched : ∀ n ∈ s.scanned, n ∈ s.switched
  reps : ∀ h ∈ s.net.handlers, h.Computed → Covers dst cfg h ∨
    ∀ a ∈ src.activeAssigned cfg.key.hash, a = h.self ∨ a ∈ h.reps.wrepto
  async : ∀ h ∈ s.net.handlers, h.op.async = true → ∀ c ∈ h.calls, c.byRhs = false →
    c.status ≠ .failed
  deletes : ∀ h ∈ s.net.handlers, h.op.isDelete = true → h.Begun → h.wrote = true
  pending : ∀ o ∈ s.pending, o.key = cfg.key.raw →
    valueClocktimeSize ≤ o.val.length ∧ clocktimeOf o.val ∈ C
  carried : f ∈ s.scanned → ∀ h ∈ s.net.handlers, h.Computed → Covers dst cfg h ∨
    h.AtRest f ∧ (h.Has f → s.Carried cfg src dst h.ct)

theorem mem_wrepto {self a : Address} {whs rhs : HashSpace} {k : UInt64} {reps : Replicators}
    (hr : calcReplicators self whs rhs k = .ok reps) (ha : a ∈ whs.activeAssigned k) :
    a = self ∨ a ∈ reps.wrepto := by
  by_cases hs : a = self
  · exact .inl hs
  have hm := mem_assignedActiveExcludeOne.2 ⟨hs, ha⟩
  unfold calcReplicators at hr
  split at hr
  next => cases hr
  next =>
    simp only [] at hr
    split_ifs at hr <;> cases hr
    · exact .inr hm
    · exact .inr hm

theorem accepted_of_calc {self : Address} {whs rhs : HashSpace} {k : UInt64} {reps : Replicators}
    (hr : calcReplicators self whs rhs k = .ok reps) :
    checkCoordinatorAssign self whs k = .ok () := by
  unfold calcReplicators at hr
  split at hr
  next => cases hr
  next hc => exact hc

theorem Carried.store {ct : ClockTime} (h : s.Carried cfg src dst ct)
    (inv : Inv C cfg src dst f s) (hC : StrictTotal C) {a : StoreNet.Act}
    {net : StoreNet} (st : Steps cfg s.net a net) (hK : s.net.KeepsEntry cfg a)
    (hN : s.net.WritesNewer cfg a) (hct : ct ∈ C) :
    ({ s with net := net } : Racing).Carried cfg src dst ct :=
  fun b hb => (h b hb).imp_left (inv.base.put_atLeast hC st hK hN hct)

section store

variable {a : StoreNet.Act} {net : StoreNet} {j : ℕ} {h' : Handler}

/-- The replicas of a handler are those it had, or it computes them now. -/
theorem Inv.reps_origin (inv : Inv C cfg src dst f s) (st : Steps cfg s.net a net)
    (hg : s.KeepsWrites cfg f a) (hj' : net.handlers[j]? = some h') (hc : h'.Computed) :
    (∃ h, s.net.handlers[j]? = some h ∧ h.Computed ∧ h'.self = h.self ∧ h'.reps = h.reps ∧
      ∀ {f}, h.AtRest f → h'.AtRest f ∧ (h'.Has f → h.Has f) ∧ h'.ct = h.ct) ∨
    ∃ h, s.net.handlers[j]? = some h ∧ a = .step j ∧ h.pc = .calc ∧ h'.self = h.self ∧
      calcReplicators h.self (s.net.srv h.self).whs (s.net.srv h.self).rhs cfg.key.hash =
        .ok h'.reps := by
  rcases st.origin hj' with ⟨x, op, rfl, -⟩ | ⟨h, hj, hcase⟩
  · simp [Handler.Computed, Handler.init] at hc
  have w := inv.base.wf h (List.mem_of_getElem? hj)
  rcases hcase with rfl | ⟨x', o, rfl, he⟩ | ⟨i, c, res, again, act, hx, hw, ha, -⟩
  · exact .inl ⟨_, hj, hc, rfl, rfl, fun r => ⟨r, fun h => h, rfl⟩⟩
  · have m := Handler.moves_of_step he
    have hself := (m.later w).self
    rcases m.reps hc with ⟨hco, hre⟩ | ⟨hp, hca⟩ | ⟨-, hdel, hp, hrr, hrem, -⟩
    · exact .inl ⟨h, hj, hco, hself, hre, fun r => r.moves m⟩
    · exact .inr ⟨h, hj, rfl, hp, hself, hca⟩
    · have hrem' := (hg h hj).1 hp hdel hrr
      simp [hrem] at hrem'
  · have rest : ∀ {f}, h.AtRest f → h'.AtRest f ∧ (h'.Has f → h.Has f) ∧ h'.ct = h.ct :=
      fun r => r.answers ha hx hw
    obtain ⟨c', n, rs, r₁, r₂, rfl, -⟩ := ha.eq
    exact .inl ⟨h, hj, hc, rfl, rfl, rest⟩

theorem Inv.async_store (inv : Inv C cfg src dst f s) (st : Steps cfg s.net a net)
    (hg : s.KeepsWrites cfg f a) (hj' : net.handlers[j]? = some h') (has : h'.op.async = true)
    {c : Call} (hc : c ∈ h'.calls) (hb : c.byRhs = false) : c.status ≠ .failed := by
  intro hs
  rcases st.origin hj' with ⟨x, op, rfl, -⟩ | ⟨h, hj, hcase⟩
  · simp [Handler.init] at hc
  have hm := List.mem_of_getElem? hj
  rcases hcase with rfl | ⟨x', o, rfl, he⟩ | ⟨i, x, res, again, active, hx, hw, ha, hby⟩
  · exact inv.async _ hm has c hc hb hs
  · have m := Handler.moves_of_step he
    rw [(m.later (inv.base.wf h hm)).op] at has
    exact inv.async h hm has c (m.mem_of_over hc (.inr hs)) hb hs
  · obtain ⟨c', n, rs, r₁, r₂, rfl, -, hbr, hres⟩ := ha.eq
    rcases List.mem_or_eq_of_mem_set hc with hc | rfl
    · exact inv.async h hm has c hc hb hs
    have hbx : x.byRhs = false := by rw [← hbr, hb]
    rcases hres with ⟨-, -, he⟩ | ⟨⟨e, hres⟩, ⟨-, he⟩ | ⟨-, -, hlast⟩⟩
    · simp [he] at hs
    · simp [he, hw] at hs
    · refine hlast hbx ?_
      rcases hby with ⟨rfl, -⟩ | ⟨k, rfl, hk⟩
      · exact hg h hj x hx has hbx hw
      · exact hg _ hk (by rw [hres]) h hj x hx rfl has hbx hw

theorem Inv.deletes_store (inv : Inv C cfg src dst f s) (st : Steps cfg s.net a net)
    (hg : s.KeepsWrites cfg f a) (hj' : net.handlers[j]? = some h')
    (hdel : h'.op.isDelete = true) (hb : h'.Begun) : h'.wrote = true := by
  rcases st.origin hj' with ⟨x, op, rfl, -⟩ | ⟨h, hj, hcase⟩
  · simp [Handler.Begun, Handler.init] at hb
  have hm := List.mem_of_getElem? hj
  rcases hcase with rfl | ⟨x', o, rfl, he⟩ | ⟨i, x, res, again, active, hx, -, ha, -⟩
  · exact inv.deletes _ hm hdel hb
  · have m := Handler.moves_of_step he
    have l := m.later (inv.base.wf h hm)
    rw [l.op] at hdel
    rcases m.begun_of_delete hdel hb with hb | hw | ⟨hp, hrr, hrem⟩
    · exact l.wrote (inv.deletes h hm hdel hb)
    · exact hw
    · have hrem' := (hg h hj).1 hp hdel hrr
      simp [hrem] at hrem'
  · have hb := Handler.begun_of_mem (List.mem_of_getElem? hx)
    have l := ha.later hx
    rw [l.op] at hdel
    exact l.wrote (inv.deletes h hm hdel hb)

theorem Inv.store (inv : Inv C cfg src dst f s) (hC : StrictTotal C)
    (st : Steps cfg s.net a net) (hne : ∀ y w r, a ≠ .hashSpaces y w r)
    (ho : s.net.Orderly C cfg a) (hg : s.KeepsWrites cfg f a) :
    Inv C cfg src dst f { s with net := net } := by
  obtain ⟨hI, hN, hK⟩ := ho
  refine ⟨inv.base.step st hK hN hI, inv.durable.step inv.base hC st hK hN, fun n => ?_,
    inv.switched, fun h' hh' hc => ?_, fun h' hh' has c hc hb => ?_, fun h' hh' hdel hb => ?_,
    inv.pending, fun hf h' hh' hc => ?_⟩
  · rw [(st.hashSpaces_eq hne n).1]
    exact inv.whs n
  · obtain ⟨j, hj'⟩ := List.mem_iff_getElem?.1 hh'
    rcases inv.reps_origin st hg hj' hc with ⟨h, hj, hco, hself, hre, -⟩ | ⟨h, hj, -, -, hself, hca⟩
    · simp only [Covers, hself, hre]
      exact inv.reps h (List.mem_of_getElem? hj) hco
    · have hw := inv.whs h.self
      simp only [Covers, hself]
      split_ifs at hw with hsw
      · exact .inl fun b hb => mem_wrepto hca (by rw [hw]; exact hb)
      · exact .inr fun b hb => mem_wrepto hca (by rw [hw]; exact hb)
  · obtain ⟨j, hj'⟩ := List.mem_iff_getElem?.1 hh'
    exact inv.async_store st hg hj' has hc hb
  · obtain ⟨j, hj'⟩ := List.mem_iff_getElem?.1 hh'
    exact inv.deletes_store st hg hj' hdel hb
  · obtain ⟨j, hj'⟩ := List.mem_iff_getElem?.1 hh'
    rcases inv.reps_origin st hg hj' hc with ⟨h, hj, hco, hself, hre, rest⟩ |
      ⟨h, hj, rfl, hp, hself, hca⟩
    · have hm := List.mem_of_getElem? hj
      rcases inv.carried hf h hm hco with hcov | ⟨hr, hcar⟩
      · simp only [Covers, hself, hre]
        exact .inl hcov
      · obtain ⟨hr', hhas, hct⟩ := rest hr
        refine .inr ⟨hr', fun hh => ?_⟩
        rw [hct]
        exact (hcar (hhas hh)).store inv hC st hK hN (inv.base.stamped h hm hr.stamped)
    · have hsw := (hg h hj).2 hp hf (by rw [accepted_of_calc hca])
      have hw := inv.whs h.self
      rw [if_pos hsw] at hw
      simp only [Covers, hself]
      exact .inl fun b hb => mem_wrepto hca (by rw [hw]; exact hb)

end store

/-! ## The steps of the replace -/

/-- A step that is none of the writers'. -/
theorem Inv.of_entries (inv : Inv C cfg src dst f s) (hh : t.net.handlers = s.net.handlers)
    (hr : t.net.replies = s.net.replies)
    (hnew : ∀ x e, entry cfg t.net x = some e →
      entry cfg s.net x = some e ∨ valueClocktimeSize ≤ e.length ∧ clocktimeOf e ∈ C)
    (hat : ∀ x u, x ∈ dst.activeAssigned cfg.key.hash ∨ x = f ∧ f ∉ t.scanned → u ∈ C →
      AtLeast clocktimeOf (entry cfg s.net x) u → AtLeast clocktimeOf (entry cfg t.net x) u)
    (hscan : ∀ n ∈ s.scanned, n ∈ t.scanned)
    (hwhs : ∀ n, (t.net.srv n).whs = if n ∈ t.switched then dst else src)
    (hsw : ∀ n ∈ t.scanned, n ∈ t.switched)
    (hpend : ∀ o ∈ t.pending, o.key = cfg.key.raw →
      valueClocktimeSize ≤ o.val.length ∧ clocktimeOf o.val ∈ C)
    (hold : ∀ ct ∈ C, s.Carried cfg src dst ct → t.Carried cfg src dst ct)
    (hnow : f ∈ t.scanned → f ∉ s.scanned → ∀ h ∈ s.net.handlers, h.Computed → Covers dst cfg h ∨
      h.AtRest f ∧ (h.Has f → t.Carried cfg src dst h.ct)) : Inv C cfg src dst f t where
  base := inv.base.of_entries hh hnew
  durable := by
    refine inv.durable.of_entries inv.base hh hr (fun x hx => ?_) hat
    exact hx.imp_right fun ⟨hx, hf⟩ => ⟨hx, fun hs => hf (hscan f hs)⟩
  whs := hwhs
  switched := hsw
  reps := hh ▸ inv.reps
  async := hh ▸ inv.async
  deletes := hh ▸ inv.deletes
  pending := hpend
  carried hf h hm hc := by
    rw [hh] at hm
    by_cases hfs : f ∈ s.scanned
    · refine (inv.carried hfs h hm hc).imp_right fun ⟨hr, hcar⟩ => ⟨hr, fun hhas => ?_⟩
      exact hold _ (inv.base.stamped h hm hr.stamped) (hcar hhas)
    · exact hnow hf hfs h hm hc

theorem Inv.switch (inv : Inv C cfg src dst f s) (n : Address) :
    Inv C cfg src dst f { s with
      net := s.net.setSrv n { s.net.srv n with whs := dst }
      switched := n :: s.switched } := by
  have he : entry cfg (s.net.setSrv n { s.net.srv n with whs := dst }) = entry cfg s.net :=
    entry_setSrv_same _ _ rfl
  refine inv.of_entries rfl rfl (fun x e hx => .inl (he ▸ hx)) (fun x u _ _ h => he ▸ h)
    (fun n hn => hn) (fun m => ?_) (fun m hm => List.mem_cons_of_mem _ (inv.switched m hm))
    inv.pending (fun ct _ h b hb => he ▸ h b hb) fun hf hnf => absurd hf hnf
  by_cases hm : m = n
  · subst hm
    simp [setSrv]
  · simp only [setSrv, Function.update_of_ne hm, List.mem_cons, hm, false_or]
    exact inv.whs m

theorem lookup_of_mem_replaceCopy {n : Address} {now : ClockTime} {st : Storage} {o : Offer}
    (ho : o ∈ (replaceCopy n src dst now st).2) :
    st.db.lookup o.key = some o.val ∧ valueMetaSize ≤ o.val.length := by
  unfold replaceCopy at ho
  split_ifs at ho
  · simp at ho
  · exact mem_live.1 (mem_forEachReplaceCopy.1 ho).1

theorem entry_scan (src dst : HashSpace) {n : Address} {now : ClockTime}
    (hk : s.KeepsScanned cfg n now) :
    entry cfg (s.setStorage n (replaceCopy n src dst now (s.net.srv n).storage).1).net =
      entry cfg s.net := by
  refine entry_setSrv_same _ _ ?_
  unfold replaceCopy
  split_ifs
  · rfl
  · exact hk

theorem whs_setStorage (n m : Address) (x : Storage) :
    ((s.setStorage n x).net.srv m).whs = (s.net.srv m).whs := by
  unfold setStorage setSrv
  by_cases hm : m = n
  · subst hm
    simp
  · simp [hm]

theorem Inv.scan (inv : Inv C cfg src dst f s) (hs : src.getActiveNodes ≠ [])
    (hf : (Replacing.owners src dst cfg.key.raw).head? = some f) {n : Address} {now : ClockTime}
    (hn : n ∈ dst.getActiveNodes) (hsw : n ∈ s.switched)
    (hk : s.KeepsScanned cfg n now) (harr : n = f → s.Arrived cfg dst f) :
    Inv C cfg src dst f
      { s.setStorage n (replaceCopy n src dst now (s.net.srv n).storage).1 with
        scanned := n :: s.scanned
        pending := s.pending ++ (replaceCopy n src dst now (s.net.srv n).storage).2 } := by
  have he := entry_scan src dst hk
  refine inv.of_entries rfl rfl (fun x e hx => .inl (he ▸ hx)) (fun x u _ _ h => ?_)
    (fun m hm => List.mem_cons_of_mem _ hm) (fun m => ?_) (fun m hm => ?_) (fun o ho hok => ?_)
    (fun ct _ h b hb => ?_) fun hfs hnf h hm hc => ?_
  · exact he ▸ h
  · exact (whs_setStorage n m _).trans (inv.whs m)
  · rcases List.mem_cons.1 hm with rfl | hm
    · exact hsw
    · exact inv.switched m hm
  · rcases List.mem_append.1 ho with ho | ho
    · exact inv.pending o ho hok
    · obtain ⟨hl, hlen⟩ := lookup_of_mem_replaceCopy ho
      rw [hok] at hl
      exact ⟨le_trans (by decide) hlen, inv.base.entries n _ hl⟩
  · refine (h b hb).imp (fun h => he ▸ h) ?_
    rintro ⟨o, ho, hd⟩
    exact ⟨o, List.mem_append_left _ ho, hd⟩
  · obtain rfl : f = n := (List.mem_cons.1 hfs).resolve_right hnf
    obtain ⟨hlive, hrest⟩ := harr rfl
    refine (hrest h hm hc).imp_right fun hr => ⟨hr, fun hhas b hb => .inr ?_⟩
    have hat : AtLeast clocktimeOf (entry cfg s.net f) h.ct := by
      rcases hhas with ⟨rfl, hw⟩ | ⟨c, hcm, rfl, hst⟩
      · exact inv.durable.wrote h hm hw (.inr ⟨rfl, hnf⟩)
      · exact inv.durable.answered h hm c hcm hst (.inr ⟨rfl, hnf⟩)
    obtain ⟨e, hl, hlt⟩ := hat
    exact ⟨⟨b, cfg.key.raw, e⟩, List.mem_append_right _
      (Replacing.mem_replaceCopy now (hlive e hl) hs hn hl hf hb), rfl, rfl, hlt⟩

/-- A record of the key is put at its receiver, one of another key changes nothing. -/
theorem entry_apply {o : Offer} (hE : HasClocktime (entry cfg s.net o.dest)) (x : Address) :
    entry cfg (s.setStorage o.dest (submitMessage (s.net.srv o.dest).storage o)).net x =
      if x = o.dest ∧ o.key = cfg.key.raw then put clocktimeOf (entry cfg s.net x) o.val
      else entry cfg s.net x := by
  have hdest : entry cfg (s.setStorage o.dest (submitMessage (s.net.srv o.dest).storage o)).net =
      Function.update (entry cfg s.net) o.dest
        ((submitMessage (s.net.srv o.dest).storage o).db.lookup cfg.key.raw) :=
    entry_setSrv _ _
  rw [hdest]
  by_cases hx : x = o.dest
  · subst hx
    rw [Function.update_self]
    by_cases hk : o.key = cfg.key.raw
    · rw [if_pos ⟨rfl, hk⟩]
      unfold submitMessage
      rw [hk]
      exact lookup_update_put hE
    · rw [if_neg fun h => hk h.2]
      exact lookup_submitMessage hk
  · rw [Function.update_of_ne hx, if_neg fun h => hx h.1]

theorem Inv.apply (inv : Inv C cfg src dst f s) (hC : StrictTotal C) {k : ℕ} {o : Offer}
    (ho : s.pending[k]? = some o) : Inv C cfg src dst f
      { s.setStorage o.dest (submitMessage (s.net.srv o.dest).storage o) with
        pending := s.pending.eraseIdx k } := by
  have hmem : o ∈ s.pending := List.mem_of_getElem? ho
  have he := fun x => entry_apply (s := s) (o := o) (inv.base.hasClocktime o.dest) x
  have hat : ∀ x, ∀ u ∈ C, AtLeast clocktimeOf (entry cfg s.net x) u → AtLeast clocktimeOf
      (entry cfg (s.setStorage o.dest (submitMessage (s.net.srv o.dest).storage o)).net x) u := by
    intro x u hu h
    rw [he x]
    split_ifs with hx
    · exact h.put hC (inv.base.entries x) (inv.pending o hmem hx.2).2 hu
    · exact h
  refine inv.of_entries rfl rfl (fun x e hx => ?_) (fun x u _ hu h => hat x u hu h)
    (fun m hm => hm) (fun m => (whs_setStorage _ m _).trans (inv.whs m)) inv.switched
    (fun p hp => inv.pending p (List.mem_of_mem_eraseIdx hp)) (fun ct hct h b hb => ?_)
    fun hf hnf => absurd hf hnf
  · have hx : entry cfg (s.setStorage o.dest
        (submitMessage (s.net.srv o.dest).storage o)).net x = some e := hx
    rw [he x] at hx
    split_ifs at hx with hxo
    · unfold put at hx
      split_ifs at hx
      · cases hx
        exact .inr (inv.pending o hmem hxo.2)
      · exact .inl hx
    · exact .inl hx
  · rcases h b hb with h | ⟨p, hp, rfl, hpk, hlt⟩
    · exact .inl (hat b ct hct h)
    by_cases hpo : p = o
    · subst hpo
      refine .inl ?_
      have hv := (inv.pending p hp hpk).2
      have hC' : ∀ e, put clocktimeOf (entry cfg s.net p.dest) p.val = some e → clocktimeOf e ∈ C :=
        put_stamped (inv.base.entries p.dest) hv
      show AtLeast clocktimeOf (entry cfg (s.setStorage p.dest
        (submitMessage (s.net.srv p.dest).storage p)).net p.dest) ct
      rw [he, if_pos ⟨rfl, hpk⟩]
      exact (atLeast_put hC hv).trans hC hC' hv hct hlt
    · refine .inr ⟨p, ?_, rfl, hpk, hlt⟩
      obtain ⟨i, hi⟩ := List.mem_iff_getElem?.1 hp
      refine List.mem_eraseIdx_iff_getElem?.2 ⟨i, ?_, hi⟩
      rintro rfl
      exact hpo (Option.some.inj (hi.symm.trans ho))

theorem lookup_of_replaceDelete {n : Address} {hs : HashSpace} {now : ClockTime} {st : Storage}
    {key e : Bytes} (h : (replaceDelete n hs now st).db.lookup key = some e) :
    st.db.lookup key = some e := by
  unfold replaceDelete at h
  split_ifs at h
  · exact h
  · simp only [] at h
    rw [Db.lookup_foldl_erase (fun kv : Bytes × Bytes => kv.1)] at h
    split_ifs at h
    rw [lookup_sweep] at h
    exact (Option.filter_eq_some_iff.1 h).1

/-- What a server is to keep stays, but for garbage. -/
theorem lookup_replaceDelete_assigned {n : Address} {hs : HashSpace} {now : ClockTime}
    {st : Storage} {key : Bytes} (hn : n ∈ hs.activeAssigned (hashOf key))
    (hk : (st.sweep now).db.lookup key = st.db.lookup key) :
    (replaceDelete n hs now st).db.lookup key = st.db.lookup key := by
  unfold replaceDelete
  split_ifs
  · rfl
  · simp only []
    rw [Db.lookup_foldl_erase (fun kv : Bytes × Bytes => kv.1), hk, if_neg]
    intro hm
    obtain ⟨kv, hkv, rfl⟩ := List.mem_map.1 hm
    have := (List.mem_filter.1 hkv).2
    simp [testReplicatorAssign_iff.2 hn] at this

theorem Inv.delete (inv : Inv C cfg src dst f s) (hfd : f ∈ dst.getActiveNodes) {n : Address}
    {now : ClockTime} (hcop : s.Copied dst) (hn : n ∈ dst.getActiveNodes)
    (hk : s.KeepsScanned cfg n now) : Inv C cfg src dst f
      { s with
        net := s.net.setSrv n { s.net.srv n with
          rhs := (s.net.srv n).whs
          storage := replaceDelete n (s.net.srv n).whs now (s.net.srv n).storage }
        deleted := n :: s.deleted } := by
  have hw : (s.net.srv n).whs = dst := by
    rw [inv.whs n, if_pos (inv.switched n (hcop.1 n hn))]
  rw [hw]
  have he : ∀ x, x ∈ dst.activeAssigned cfg.key.hash → entry cfg (s.net.setSrv n
      { s.net.srv n with rhs := dst, storage := replaceDelete n dst now (s.net.srv n).storage }) x =
      entry cfg s.net x := by
    intro x hx
    rw [entry_setSrv]
    by_cases hxn : x = n
    · subst hxn
      rw [Function.update_self]
      exact lookup_replaceDelete_assigned hx hk
    · rw [Function.update_of_ne hxn]
  refine inv.of_entries rfl rfl (fun x e hx => .inl ?_) (fun x u hx _ h => ?_) (fun m hm => hm)
    (fun m => ?_) inv.switched inv.pending (fun ct _ h b hb => ?_) fun hf hnf => absurd hf hnf
  · have hx : entry cfg (s.net.setSrv n { s.net.srv n with
      rhs := dst, storage := replaceDelete n dst now (s.net.srv n).storage }) x = some e := hx
    rw [entry_setSrv] at hx
    by_cases hxn : x = n
    · subst hxn
      rw [Function.update_self] at hx
      exact lookup_of_replaceDelete hx
    · rw [Function.update_of_ne hxn] at hx
      exact hx
  · rcases hx with hx | ⟨-, hnf⟩
    · exact (he x hx).symm ▸ h
    · exact absurd (hcop.1 f hfd) hnf
  · refine Eq.trans ?_ (inv.whs m)
    by_cases hm : m = n
    · subst hm
      simp [setSrv]
    · simp [setSrv, hm]
  · have hd := (mem_newbies.1 hb).1
    exact (h b hb).imp_left fun h => (he b hd).symm ▸ h

theorem step_inv (inv : Inv C cfg src dst f s) (hC : StrictTotal C)
    (hs : src.getActiveNodes ≠ []) (hfd : f ∈ dst.getActiveNodes)
    (hf : (Replacing.owners src dst cfg.key.raw).head? = some f) {a : Act}
    (hg : s.Safe C cfg dst f a) (h : step cfg src dst s a = some t) : Inv C cfg src dst f t := by
  cases a with
  | store a =>
    have hst : ∃ net, s.net.step cfg a = some net ∧ t = { s with net := net } ∧
        ∀ y w r, a ≠ .hashSpaces y w r := by
      unfold step at h
      split at h
      next => cases h
      next hne he =>
        cases he
        obtain ⟨net, hn, rfl⟩ := Option.map_eq_some_iff.1 h
        exact ⟨net, hn, rfl, fun y w r he => hne y w r (by rw [he])⟩
      all_goals simp at *
    obtain ⟨net, hn, rfl, hne⟩ := hst
    exact inv.store hC (step_steps hn) hne hg.1 hg.2
  | switch n =>
    simp only [step] at h
    split_ifs at h
    cases h
    exact inv.switch n
  | scan n now =>
    simp only [step] at h
    split_ifs at h with hn
    cases h
    exact inv.scan hs hf hn.1 hn.2.1 hg.1 hg.2
  | apply k =>
    obtain ⟨o, ho, rfl⟩ := Option.map_eq_some_iff.1 h
    exact inv.apply hC ho
  | delete n now =>
    simp only [step] at h
    split_ifs at h with hn
    cases h
    exact inv.delete hfd hn.1 hn.2.1 hg.1

theorem start_inv {srv : Address → State} (hw : ∀ x, (srv x).whs = src)
    (hE : StampedEntries C cfg srv) : Inv C cfg src dst f (start srv) where
  base := init_inv hE
  durable := init_durable
  whs := hw
  switched := by simp [start]
  reps := by simp [start, StoreNet.init]
  async := by simp [start, StoreNet.init]
  deletes := by simp [start, StoreNet.init]
  pending := by simp [start]
  carried := by simp [start]

/-- The handler is done and its calls are over. -/
def Finished (h : Handler) : Prop :=
  h.pc = .done ∧ ∀ c ∈ h.calls, c.status = .answered ∨ c.status = .failed

instance (h : Handler) : Decidable (Finished h) := inferInstanceAs (Decidable (_ ∧ _))

/-- What a finished and acknowledged handler has done at the nodes it was to write at. -/
theorem Inv.acknowledged (inv : Inv C cfg src dst f s) {h : Handler} (hh : h ∈ s.net.handlers)
    (hack : ∃ r ∈ h.responses, r.success = true) (hfin : Finished h) :
    h.Begun ∧ h.wrote = true ∧ ∀ a ∈ h.reps.wrepto, ∃ c ∈ h.calls, c.dest = a ∧
      c.status = .answered := by
  obtain ⟨r, hr, hsuc⟩ := hack
  obtain ⟨hdone, hover⟩ := hfin
  have w := inv.base.wf h hh
  obtain ⟨hb, -, hset⟩ := w.acked r hr hsuc
  refine ⟨hb, ?_, fun a ha => ?_⟩
  · cases hop : h.op with
    | set val async => exact (w.setWrote ⟨val, async, hop⟩).1 hdone
    | cas val => exact w.casWrote hb ⟨val, hop⟩
    | delete async => exact inv.deletes h hh (by rw [hop]; rfl) hb
  · obtain ⟨c, hc, hd, hbr⟩ := (Handler.call_of_mem (w.prepared hb)).1 ha
    refine ⟨c, hc, hd, ?_⟩
    cases has : h.op.async with
    | true => exact (hover c hc).resolve_right (inv.async h hh has c hc hbr)
    | false => simpa [Handler.settled, hbr] using hset has c hc

theorem Inv.survives (inv : Inv C cfg src dst f s)
    (hf : (Replacing.owners src dst cfg.key.raw).head? = some f) (hfd : f ∈ dst.getActiveNodes)
    (hcomplete : s.Complete dst) {h : Handler} (hh : h ∈ s.net.handlers)
    (hack : ∃ r ∈ h.responses, r.success = true) (hfin : Finished h) {a : Address}
    (ha : a ∈ dst.activeAssigned cfg.key.hash) :
    AtLeast clocktimeOf (entry cfg s.net a) h.ct := by
  obtain ⟨hb, hw, hans⟩ := inv.acknowledged hh hack hfin
  have hco := (inv.base.wf h hh).computed hb
  have direct : a = h.self ∨ a ∈ h.reps.wrepto → AtLeast clocktimeOf (entry cfg s.net a) h.ct := by
    rintro (rfl | hm)
    · exact inv.durable.wrote h hh hw (.inl ha)
    · obtain ⟨c, hc, rfl, hs⟩ := hans a hm
      exact inv.durable.answered h hh c hc hs (.inl ha)
  rcases inv.reps h hh hco with hcov | hsrc
  · exact direct (hcov a ha)
  by_cases has : a ∈ src.activeAssigned cfg.key.hash
  · exact direct (hsrc a has)
  rcases inv.carried (hcomplete.1.1 f hfd) h hh hco with hcov | ⟨-, hcar⟩
  · exact direct (hcov a ha)
  have hhas : h.Has f := by
    have hfs := (mem_currentOwners.1 (List.mem_of_head? hf)).1
    rcases hsrc f hfs with rfl | hm
    · exact .inl ⟨rfl, hw⟩
    · obtain ⟨c, hc, hd, hs⟩ := hans f hm
      exact .inr ⟨c, hc, hd, hs⟩
  rcases hcar hhas a (mem_newbies.2 ⟨ha, has⟩) with hat | ⟨o, ho, -⟩
  · exact hat
  · simp [hcomplete.1.2] at ho

theorem acknowledged_survives {hash : Bytes → UInt64} {ss ds : Seed} (hC : StrictTotal C)
    {srv : Address → State}
    (hsrv : ∀ x, (srv x).whs = .ofSeed hash ss ∧ (srv x).rhs = .ofSeed hash ss)
    (hE : StampedEntries C cfg srv)
    (hf : (Replacing.owners (.ofSeed hash ss) (.ofSeed hash ds) cfg.key.raw).head? = some f)
    {as : List Act}
    (hrun : Machine.Run (step cfg (.ofSeed hash ss) (.ofSeed hash ds))
      (Safe C cfg (.ofSeed hash ds) f) (start srv) as t)
    (hcomplete : t.Complete (.ofSeed hash ds)) {h : Handler} (hh : h ∈ t.net.handlers)
    (hack : ∃ r ∈ h.responses, r.success = true) (hfin : Finished h) :
    ∀ a ∈ (HashSpace.ofSeed hash ds).activeAssigned cfg.key.hash,
      AtLeast clocktimeOf (entry cfg t.net a) h.ct := by
  have hmem := List.mem_of_head? hf
  have hfd := active_of_mem_currentOwners hmem
  have hs : (HashSpace.ofSeed hash ss).getActiveNodes ≠ [] :=
    List.ne_nil_of_mem (HashSpace.mem_getActiveNodes_of_activeAssigned (mem_currentOwners.1 hmem).1)
  have inv : Inv C cfg (.ofSeed hash ss) (.ofSeed hash ds) f t :=
    hrun.inv (fun s a t inv hg hst => step_inv inv hC hs hfd hf hg hst)
      (start_inv (fun x => (hsrv x).1) hE)
  intro a ha
  exact inv.survives hf hfd hcomplete hh hack hfin ha

/-! Server 1 has the key, server 2 comes, and server 1 sets the key. -/

section Sample

open Sample

/-- The handler is done before server 1 scans its database. -/
def arrivedRun : List Act :=
  [.store (.request (svr 1) (.set ⟨entryVal, meta_le_entryVal⟩ false)), .store (.step 0),
    .store (.step 0), .store (.step 0), .switch (svr 1), .scan (svr 1) (.mk' 1 1000), .apply 0,
    .switch (svr 2), .scan (svr 2) (.mk' 1 1000), .delete (svr 1) (.mk' 1 1000),
    .delete (svr 2) (.mk' 1 1000)]

/-- The handler computes its replicas before, and writes after. -/
def missedRun : List Act :=
  [.store (.request (svr 1) (.set ⟨entryVal, meta_le_entryVal⟩ false)), .store (.step 0),
    .switch (svr 1), .scan (svr 1) (.mk' 1 1000), .store (.step 0), .store (.step 0),
    .switch (svr 2), .scan (svr 2) (.mk' 1 1000), .delete (svr 1) (.mk' 1 1000),
    .delete (svr 2) (.mk' 1 1000)]

theorem arrivedRun_acknowledged :
    ((Machine.execIf (step sampleCfg (.ofSeed zeroHash oneSeed) (.ofSeed zeroHash twoSeed))
      (Safe {ct | ct ∈ ticks} sampleCfg (.ofSeed zeroHash twoSeed) (svr 1))
      (start fun _ => emptyServer oneSeed oneSeed) arrivedRun).any fun t =>
        t.Complete (.ofSeed zeroHash twoSeed) ∧ t.net.handlers.any fun h =>
          h.ct = .mk' 1 1000 ∧ (∃ r ∈ h.responses, r.success = true) ∧ Finished h) = true := by
  decide +kernel

theorem owners_sampleCfg : (Replacing.owners (.ofSeed zeroHash oneSeed) (.ofSeed zeroHash twoSeed)
    sampleCfg.key.raw).head? = some (svr 1) := by
  decide +kernel

theorem arrivedRun_survives : ∃ t : Racing,
    Machine.Run (step sampleCfg (.ofSeed zeroHash oneSeed) (.ofSeed zeroHash twoSeed))
      (Safe {ct | ct ∈ ticks} sampleCfg (.ofSeed zeroHash twoSeed) (svr 1))
      (start fun _ => emptyServer oneSeed oneSeed) arrivedRun t ∧
    t.Complete (.ofSeed zeroHash twoSeed) ∧ ∃ h ∈ t.net.handlers, h.ct = .mk' 1 1000 ∧
      ∀ a ∈ (HashSpace.ofSeed zeroHash twoSeed).activeAssigned sampleCfg.key.hash,
        AtLeast clocktimeOf (entry sampleCfg t.net a) h.ct := by
  obtain ⟨t, ht, hany⟩ := (Option.any_eq_true _ _).1 arrivedRun_acknowledged
  obtain ⟨hc, hany⟩ := of_decide_eq_true hany
  obtain ⟨h, hh, hany⟩ := List.any_eq_true.1 hany
  obtain ⟨hct, hack, hfin⟩ := of_decide_eq_true hany
  have hrun := Machine.execIf_run ht
  exact ⟨t, hrun, hc, h, hh, hct, acknowledged_survives strictTotal_ticks
    (fun _ => hashSpaces_emptyServer oneSeed oneSeed) (stampedEntries_empty _ _) owners_sampleCfg
    hrun hc hh hack hfin⟩

/-- No acknowledged write is lost. -/
def LosesNothing (cfg : Config) (dst : HashSpace) (s : Racing) : Prop :=
  ∀ h ∈ s.net.handlers, (∃ r ∈ h.responses, r.success = true) → Finished h →
    ∀ a ∈ dst.activeAssigned cfg.key.hash, AtLeast clocktimeOf (entry cfg s.net a) h.ct

theorem missedRun_acknowledged :
    ((Machine.execIf (step sampleCfg (.ofSeed zeroHash oneSeed) (.ofSeed zeroHash twoSeed))
      (Plain {ct | ct ∈ ticks} sampleCfg)
      (start fun _ => emptyServer oneSeed oneSeed) missedRun).any fun t =>
        t.Complete (.ofSeed zeroHash twoSeed) ∧ entry sampleCfg t.net (svr 2) = none ∧
        svr 2 ∈ (HashSpace.ofSeed zeroHash twoSeed).activeAssigned sampleCfg.key.hash ∧
        t.net.handlers.any fun h => (∃ r ∈ h.responses, r.success = true) ∧ Finished h) = true := by
  decide +kernel

theorem not_losesNothing_missedRun : ∃ t : Racing,
    Machine.Run (step sampleCfg (.ofSeed zeroHash oneSeed) (.ofSeed zeroHash twoSeed))
      (Plain {ct | ct ∈ ticks} sampleCfg) (start fun _ => emptyServer oneSeed oneSeed) missedRun t ∧
    t.Complete (.ofSeed zeroHash twoSeed) ∧
    ¬ t.LosesNothing sampleCfg (.ofSeed zeroHash twoSeed) := by
  obtain ⟨t, ht, hany⟩ := (Option.any_eq_true _ _).1 missedRun_acknowledged
  obtain ⟨hc, hnone, hmem, hany⟩ := of_decide_eq_true hany
  obtain ⟨h, hh, hany⟩ := List.any_eq_true.1 hany
  obtain ⟨hack, hfin⟩ := of_decide_eq_true hany
  refine ⟨t, Machine.execIf_run ht, hc, fun hall => ?_⟩
  obtain ⟨e, he, -⟩ := hall h hh hack hfin (svr 2) hmem
  simp [hnone] at he

end Sample

end Racing

end Kumofs
