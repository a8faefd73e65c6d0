import Kumofs.Lib.Count
import Kumofs.Proofs.Assign
import Kumofs.Server.Store

/-!
# A write handler by itself

What the next step of a handler can be, and what its callbacks can do; and what holds of a handler
at every moment: its calls are those it was to make, and `copyRequired` counts the calls that a
response still waits for.
-/

namespace Kumofs.Server

/-- The operation is a `Delete`. -/
def Op.isDelete : Op → Bool
  | .delete _ => true
  | _ => false

namespace Handler

/-- The steps of a handler `h` on a server in state `s`. -/
inductive Moves (key : DBKey) (s : State) (h : Handler) : State → Handler → Option ℕ → Prop
  | refused {e : String} : h.pc = .calc →
      calcReplicators h.self s.whs s.rhs key.hash = .error e →
      Moves key s h s { h.respond (.error e) with pc := .refused } none
  | computed {reps : Replicators} : h.pc = .calc →
      calcReplicators h.self s.whs s.rhs key.hash = .ok reps →
      Moves key s h s { h with reps := reps, pc := .stamp } none
  | stampedSet {val : DBValue} {async : Bool} : h.pc = .stamp → h.op = .set val async →
      Moves key s h { s with clock := s.clock.clockIncrClocktime.2 }
        { h with ct := s.clock.clockIncrClocktime.1 }.prepare none
  | stamped : h.pc = .stamp → (∀ val async, h.op ≠ .set val async) →
      Moves key s h { s with clock := s.clock.clockIncrClocktime.2 }
        { h with ct := s.clock.clockIncrClocktime.1, pc := .apply } none
  | idle : h.pc = .apply → (∃ val async, h.op = .set val async) → Moves key s h s h none
  | casDone {val : DBValue} : h.pc = .apply → h.op = .cas val →
      (s.storage.cas key.raw h.rawVal val.clocktime).2 = true →
      Moves key s h { s with storage := (s.storage.cas key.raw h.rawVal val.clocktime).1 }
        { h with wrote := true }.prepare none
  | casFailed {val : DBValue} : h.pc = .apply → h.op = .cas val →
      (s.storage.cas key.raw h.rawVal val.clocktime).2 = false →
      Moves key s h { s with storage := (s.storage.cas key.raw h.rawVal val.clocktime).1 }
        { h.respond (.bool false) with pc := .done } none
  | deleteDone {async : Bool} : h.pc = .apply → h.op = .delete async →
      (s.storage.remove key.raw h.ct).2 = true →
      Moves key s h { s with storage := (s.storage.remove key.raw h.ct).1 }
        (({ h with deleted := true, wrote := true }.prepare).respondIfAlone (.bool true)) none
  | deleteNothing {async : Bool} : h.pc = .apply → h.op = .delete async →
      (s.storage.remove key.raw h.ct).2 = false → h.reps.rrepto = [] →
      Moves key s h { s with storage := (s.storage.remove key.raw h.ct).1 }
        { h.respond (.bool false) with pc := .done } none
  | deleteElsewhere {async : Bool} : h.pc = .apply → h.op = .delete async →
      (s.storage.remove key.raw h.ct).2 = false → h.reps.rrepto ≠ [] →
      Moves key s h { s with storage := (s.storage.remove key.raw h.ct).1 }
        (({ h with reps := { h.reps with wrepto := [] } }.prepare).respondIfAlone (.bool true)) none
  | send {i : ℕ} : h.pc = .send → h.calls.findIdx? (·.status = .unsent) = some i →
      Moves key s h s
        { h with calls := h.calls.modify i fun c => { c with status := .waiting, attempt := 1 } }
        (some i)
  | written {val : DBValue} {async : Bool} : h.pc = .send →
      h.calls.findIdx? (·.status = .unsent) = none → h.op = .set val async →
      Moves key s h { s with storage := s.storage.set key.raw h.rawVal }
        { h.respondIfAlone (.clocktime h.ct) with pc := .done, wrote := true } none
  | casSent {val : DBValue} : h.pc = .send → h.calls.findIdx? (·.status = .unsent) = none →
      h.op = .cas val →
      Moves key s h s { h.respondIfAlone (.clocktime h.ct) with pc := .done } none
  | deleteSent {async : Bool} : h.pc = .send →
      h.calls.findIdx? (·.status = .unsent) = none → h.op = .delete async →
      Moves key s h s { h with pc := .done } none
  | ended : h.pc = .done ∨ h.pc = .refused → Moves key s h s h none

theorem step_moves (key : DBKey) (s : State) (h : Handler) :
    Moves key s h (h.step key s).1 (h.step key s).2.1 (h.step key s).2.2 := by
  unfold step
  split
  next hpc =>
    split
    next e he => exact .refused hpc he
    next reps he => exact .computed hpc he
  next hpc =>
    simp only []
    split
    next val async hop => exact .stampedSet hpc hop
    next hop => exact .stamped hpc hop
  next hpc =>
    unfold applyLocal
    split
    next val async hop => exact .idle hpc ⟨val, async, hop⟩
    next val hop =>
      simp only []
      split_ifs with hr
      · exact .casDone hpc hop hr
      · exact .casFailed hpc hop (Bool.eq_false_of_not_eq_true hr)
    next async hop =>
      simp only []
      split_ifs with hr he
      · exact .deleteDone hpc hop hr
      · exact .deleteNothing hpc hop (Bool.eq_false_of_not_eq_true hr) he
      · exact .deleteElsewhere hpc hop (Bool.eq_false_of_not_eq_true hr) he
  next hpc =>
    split
    next hi =>
      unfold finish
      split
      next val async hop => exact .written hpc hi hop
      next val hop => exact .casSent hpc hi hop
      next async hop => exact .deleteSent hpc hi hop
    next i hi => exact .send hpc hi
  next hpc => exact .ended (.inl hpc)
  next hpc => exact .ended (.inr hpc)

theorem moves_of_step {key : DBKey} {s s' : State} {h h' : Handler} {o : Option ℕ}
    (he : (s', h', o) = h.step key s) : Moves key s h s' h' o := by
  have m := step_moves key s h
  rwa [← he] at m

/-! ## The calls -/

/-- A call that no response waits for any more. -/
def settled (c : Call) : Bool := c.status = .answered || (c.status = .failed && c.byRhs)

/-- The calls are to the replicas. -/
def Prepared (h : Handler) : Prop :=
  h.calls.map (fun c => (c.dest, c.byRhs)) =
    h.reps.rrepto.map (·, true) ++ h.reps.wrepto.map (·, false)

/-- The handler has come to its calls, or its value is in the database. -/
def Begun (h : Handler) : Prop := h.pc = .send ∨ h.wrote = true ∨ h.calls ≠ []

theorem begun_of_mem {h : Handler} {c : Call} (hc : c ∈ h.calls) : h.Begun :=
  .inr (.inr (List.ne_nil_of_mem hc))

theorem dest_mem {h : Handler} (hp : h.Prepared) {c : Call} (hc : c ∈ h.calls) :
    c.dest ∈ if c.byRhs then h.reps.rrepto else h.reps.wrepto := by
  have hm : (c.dest, c.byRhs) ∈ h.calls.map (fun c => (c.dest, c.byRhs)) :=
    List.mem_map_of_mem hc
  rw [hp] at hm
  cases hb : c.byRhs <;> simpa [hb] using hm

theorem call_of_mem {h : Handler} (hp : h.Prepared) {a : Address} :
    (a ∈ h.reps.wrepto → ∃ c ∈ h.calls, c.dest = a ∧ c.byRhs = false) ∧
      (a ∈ h.reps.rrepto → ∃ c ∈ h.calls, c.dest = a ∧ c.byRhs = true) := by
  have key : ∀ b, (a, b) ∈ h.calls.map (fun c => (c.dest, c.byRhs)) →
      ∃ c ∈ h.calls, c.dest = a ∧ c.byRhs = b := by
    intro b hm
    obtain ⟨c, hc, he⟩ := List.mem_map.1 hm
    exact ⟨c, hc, congrArg Prod.fst he, congrArg Prod.snd he⟩
  constructor
  · intro ha
    exact key false (by rw [hp]; simpa using ha)
  · intro ha
    exact key true (by rw [hp]; simpa using ha)

end Handler

/-- The operation was done: a clocktime for a `Set`, true for a `Delete`. -/
def Response.success : Response → Bool
  | .clocktime _ => true
  | .bool b => b
  | .null => false
  | .error _ => false

namespace Handler

structure Wf (h : Handler) : Prop where
  early : h.pc = .calc ∨ h.pc = .stamp ∨ h.pc = .apply ∨ h.pc = .refused →
    h.calls = [] ∧ h.wrote = false
  small : h.reps.rrepto.length ≤ 3 ∧ h.reps.wrepto.length ≤ 3
  prepared : h.Begun → h.Prepared
  count : h.Begun → h.op.async = false → h.copyRequired.toNat = h.calls.countP (!settled ·)
  setWrote : (∃ val async, h.op = .set val async) → (h.pc = .done ↔ h.wrote = true)
  casWrote : h.Begun → (∃ val, h.op = .cas val) → h.wrote = true
  deleteWrote : h.Begun → (∃ async, h.op = .delete async) → 
    h.wrote = true ∨ (h.reps.wrepto = [] ∧ h.reps.rrepto ≠ [])
  sent : h.pc = .done → ∀ c ∈ h.calls, c.status ≠ .unsent
  acked : ∀ r ∈ h.responses, r.success = true → h.Begun ∧
    (∀ ct, r = .clocktime ct → ct = h.ct) ∧
    (h.op.async = false → ∀ c ∈ h.calls, settled c = true)

variable {key : DBKey} {s s' : State} {h h' : Handler} {r : Response} {o : Option ℕ}

theorem wf_idle (hc : h.calls = []) (hw : h.wrote = false) (hs : h.pc ≠ .send)
    (hd : h.pc = .done → ∀ val async, h.op ≠ .set val async)
    (hsm : h.reps.rrepto.length ≤ 3 ∧ h.reps.wrepto.length ≤ 3)
    (hr : ∀ r ∈ h.responses, r.success = false) : h.Wf := by
  have hb : ¬ h.Begun := by
    rintro (hp | hp | hp)
    · exact hs hp
    · simp [hw] at hp
    · exact hp hc
  refine ⟨fun _ => ⟨hc, hw⟩, hsm, fun h => absurd h hb, fun h => absurd h hb, ?_,
    fun h => absurd h hb, fun h => absurd h hb, by simp [hc], fun r hm hs => ?_⟩
  · rintro ⟨val, async, hop⟩
    exact ⟨fun hp => absurd hop (hd hp val async), fun h => by simp [hw] at h⟩
  · simp [hr r hm] at hs

theorem init_wf (self : Address) (op : Op) : (init self op).Wf :=
  wf_idle rfl rfl (by simp [init]) (by simp [init]) (by simp [init]) (by simp [init])

theorem prepare_prepared (h : Handler) : h.prepare.Prepared := by
  simp [Prepared, prepare, Function.comp_def]

theorem prepare_count (hs : h.reps.rrepto.length ≤ 3 ∧ h.reps.wrepto.length ≤ 3)
    (ha : h.op.async = false) :
    h.prepare.copyRequired.toNat = h.prepare.calls.countP (!settled ·) := by
  have hlen : h.reps.wrepto.length + h.reps.rrepto.length < 2 ^ 32 := by omega
  have hr : (h.reps.rrepto.map (Call.mk · true .unsent 0)).countP (!settled ·) =
      h.reps.rrepto.length := by
    rw [List.countP_map]
    simp [Function.comp_def, settled]
  have hw : (h.reps.wrepto.map (Call.mk · false .unsent 0)).countP (!settled ·) =
      h.reps.wrepto.length := by
    rw [List.countP_map]
    simp [Function.comp_def, settled]
  unfold prepare
  simp only [ha, Bool.false_eq_true, if_false, List.countP_append, hr, hw]
  rw [UInt32.toNat_ofNat_of_lt' (by simpa using hlen)]
  omega

theorem prepare_wf (hs : h.reps.rrepto.length ≤ 3 ∧ h.reps.wrepto.length ≤ 3)
    (hr : ∀ r ∈ h.responses, r.success = false)
    (hset : (∃ val async, h.op = .set val async) → h.wrote = false)
    (hc : (∃ val, h.op = .cas val) → h.wrote = true)
    (hd : (∃ async, h.op = .delete async) →
      h.wrote = true ∨ (h.reps.wrepto = [] ∧ h.reps.rrepto ≠ [])) : h.prepare.Wf where
  early := by simp [prepare]
  small := hs
  prepared _ := prepare_prepared h
  count _ := prepare_count hs
  setWrote hop := by simp [prepare, hset hop]
  casWrote _ := hc
  deleteWrote _ := hd
  sent := by simp [prepare]
  acked r hm hsu := by simp [hr r hm] at hsu

theorem Wf.not_begun (w : h.Wf)
    (hp : h.pc = .calc ∨ h.pc = .stamp ∨ h.pc = .apply ∨ h.pc = .refused) : ¬ h.Begun := by
  obtain ⟨hc, hw⟩ := w.early hp
  rintro (hs | hb | hb)
  · simp [hs] at hp
  · simp [hw] at hb
  · exact hb hc

theorem Wf.no_success (w : h.Wf) (hb : ¬ h.Begun) : ∀ r ∈ h.responses, r.success = false := by
  intro r hr
  by_contra hne
  exact hb (w.acked r hr (by simpa using hne)).1

theorem Wf.respond (w : h.Wf) (hr : r.success = true → h.Begun ∧
    (∀ ct, r = .clocktime ct → ct = h.ct) ∧
    (h.op.async = false → ∀ c ∈ h.calls, settled c = true)) : (h.respond r).Wf where
  early := w.early
  small := w.small
  prepared := w.prepared
  count := w.count
  setWrote := w.setWrote
  casWrote := w.casWrote
  deleteWrote := w.deleteWrote
  sent := w.sent
  acked r' hm hs := by
    rcases List.mem_cons.1 hm with rfl | hm
    · exact hr hs
    · exact w.acked r' hm hs

section respondIfAlone

variable (h r)

@[simp] theorem respondIfAlone_pc : (h.respondIfAlone r).pc = h.pc := by
  unfold Handler.respondIfAlone
  split_ifs <;> rfl

@[simp] theorem respondIfAlone_op : (h.respondIfAlone r).op = h.op := by
  unfold Handler.respondIfAlone
  split_ifs <;> rfl

@[simp] theorem respondIfAlone_self : (h.respondIfAlone r).self = h.self := by
  unfold Handler.respondIfAlone
  split_ifs <;> rfl

@[simp] theorem respondIfAlone_ct : (h.respondIfAlone r).ct = h.ct := by
  unfold Handler.respondIfAlone
  split_ifs <;> rfl

@[simp] theorem respondIfAlone_reps : (h.respondIfAlone r).reps = h.reps := by
  unfold Handler.respondIfAlone
  split_ifs <;> rfl

@[simp] theorem respondIfAlone_wrote : (h.respondIfAlone r).wrote = h.wrote := by
  unfold Handler.respondIfAlone
  split_ifs <;> rfl

@[simp] theorem respondIfAlone_calls : (h.respondIfAlone r).calls = h.calls := by
  unfold Handler.respondIfAlone
  split_ifs <;> rfl

end respondIfAlone

theorem Wf.respondIfAlone (w : h.Wf) (hb : h.Begun) (hr : ∀ ct, r = .clocktime ct → ct = h.ct) :
    (h.respondIfAlone r).Wf := by
  unfold Handler.respondIfAlone
  split_ifs with ha
  · refine w.respond fun _ => ⟨hb, hr, fun hf => ?_⟩
    rcases ha with ha | ha
    · simp [ha]
    · simp [ha] at hf
  · exact w

theorem Wf.begun_finish (w : h.Wf) (hp : h.pc = .send) {b : Bool}
    (hb : h.wrote = true → b = true)
    (hset : (∃ val async, h.op = .set val async) → b = true) :
    { h with pc := .done, wrote := b }.Begun := by
  have hbeg : h.Begun := .inl hp
  cases hop : h.op with
  | set val async => exact .inr (.inl (hset ⟨val, async, hop⟩))
  | cas val => exact .inr (.inl (hb (w.casWrote hbeg ⟨val, hop⟩)))
  | delete async =>
    rcases w.deleteWrote hbeg ⟨async, hop⟩ with hw | ⟨-, hne⟩
    · exact .inr (.inl (hb hw))
    · obtain ⟨a, ha⟩ := List.exists_mem_of_ne_nil _ hne
      obtain ⟨c, hc, -⟩ := (call_of_mem (w.prepared hbeg)).2 ha
      exact begun_of_mem hc

/-- The last step of a handler that has sent its calls. -/
theorem Wf.finish (w : h.Wf) (hp : h.pc = .send) (hu : ∀ c ∈ h.calls, c.status ≠ .unsent)
    {b : Bool} (hb : h.wrote = true → b = true)
    (hset : (∃ val async, h.op = .set val async) → b = true) :
    { h with pc := .done, wrote := b }.Wf := by
  have hbeg : h.Begun := .inl hp
  have hbeg' := w.begun_finish hp hb hset
  refine ⟨by simp, w.small, fun _ => w.prepared hbeg, fun _ => w.count hbeg,
    fun hop => by simp [hset hop],
    fun _ hop => hb (w.casWrote hbeg hop), fun _ hop => ?_, fun _ => hu, fun r hm hs => ?_⟩
  · exact (w.deleteWrote hbeg hop).imp_left hb
  · exact ⟨hbeg', (w.acked r hm hs).2⟩

theorem calcReplicators_small {self : Address} {whs rhs : HashSpace} {k : UInt64}
    {reps : Replicators} (hr : calcReplicators self whs rhs k = .ok reps) :
    reps.rrepto.length ≤ 3 ∧ reps.wrepto.length ≤ 3 := by
  have hlen : ∀ (hs : HashSpace) (p : Node → Bool),
      (((hs.eachAssign k).filter p).map (·.addr)).length ≤ 3 := by
    intro hs p
    rw [List.length_map]
    exact (List.length_filter_le _ _).trans (HashSpace.eachAssign_length_le hs k)
  unfold calcReplicators at hr
  split at hr
  next => cases hr
  next =>
    simp only [] at hr
    split_ifs at hr <;> cases hr
    · exact ⟨by simp, hlen _ _⟩
    · exact ⟨hlen _ _, hlen _ _⟩

/-- A call that changes keeps its destination. -/
theorem map_dest_set {calls : List Call} {i : ℕ} {c c' : Call} (hc : calls[i]? = some c)
    (hd : c'.dest = c.dest) (hb : c'.byRhs = c.byRhs) :
    (calls.set i c').map (fun c => (c.dest, c.byRhs)) =
      calls.map (fun c => (c.dest, c.byRhs)) := by
  refine List.ext_getElem? fun j => ?_
  rw [List.getElem?_map, List.getElem?_map, List.getElem?_set]
  split_ifs with hij hi
  · subst hij
    simp [hc, hd, hb]
  · subst hij
    rw [List.getElem?_eq_none (by omega)]
  · rfl

/-- A call that changes and is not settled before or after. -/
theorem Wf.setCall (w : h.Wf) {i : ℕ} {c c' : Call} (hc : h.calls[i]? = some c)
    (hd : c'.dest = c.dest) (hb : c'.byRhs = c.byRhs) (hs : settled c = false)
    (hs' : settled c' = false) (hu : h.pc = .done → c'.status ≠ .unsent) {r₁ r₂ : UInt16} :
    { h with calls := h.calls.set i c', rretry := r₁, wretry := r₂ }.Wf := by
  have hmem : c ∈ h.calls := List.mem_of_getElem? hc
  have hne : h.calls ≠ [] := List.ne_nil_of_mem hmem
  have hbeg : h.Begun := .inr (.inr hne)
  have hbeg' : { h with calls := h.calls.set i c', rretry := r₁, wretry := r₂ }.Begun :=
    .inr (.inr (by simpa using hne))
  refine ⟨fun hp => absurd hbeg (w.not_begun hp), w.small, fun _ => ?_, fun _ ha => ?_,
    w.setWrote, fun _ => w.casWrote hbeg, fun _ => w.deleteWrote hbeg, fun hp x hx => ?_,
    fun r hm hsu => ?_⟩
  · exact (map_dest_set hc hd hb).trans (w.prepared hbeg)
  · have hcount := Counting.countP_set (p := (!settled ·)) (y := c') hc
    have hold := w.count hbeg ha
    simp only [hs, hs', Bool.not_false, Bool.toNat_true] at hcount
    show h.copyRequired.toNat = (h.calls.set i c').countP (!settled ·)
    omega
  · rcases List.mem_or_eq_of_mem_set hx with hx | rfl
    · exact w.sent hp x hx
    · exact hu hp
  · obtain ⟨-, hct, hall⟩ := w.acked r hm hsu
    refine ⟨hbeg', hct, fun ha => ?_⟩
    simp [hall ha c hmem] at hs

theorem modify_sent {calls : List Call} {i : ℕ} {c : Call} (hc : calls[i]? = some c) :
    calls.modify i (fun c => { c with status := .waiting, attempt := 1 }) =
      calls.set i { c with status := .waiting, attempt := 1 } := by
  refine List.ext_getElem? fun j => ?_
  rw [List.getElem?_modify, List.getElem?_set]
  obtain ⟨hi, -⟩ := List.getElem?_eq_some_iff.1 hc
  split_ifs with hij
  · subst hij
    simp [hc]
  · simp

theorem findIdx_unsent {calls : List Call} {i : ℕ}
    (hi : calls.findIdx? (·.status = .unsent) = some i) :
    ∃ c, calls[i]? = some c ∧ c.status = .unsent := by
  obtain ⟨hlt, hp, -⟩ := List.findIdx?_eq_some_iff_getElem.1 hi
  exact ⟨calls[i], List.getElem?_eq_getElem hlt, by simpa using hp⟩

theorem findIdx_none {calls : List Call} (hi : calls.findIdx? (·.status = .unsent) = none) :
    ∀ c ∈ calls, c.status ≠ .unsent := by
  simpa using List.findIdx?_eq_none_iff.1 hi

theorem Moves.wf (m : Moves key s h s' h' o) (w : h.Wf) : h'.Wf := by
  cases m with
  | refused hp =>
    obtain ⟨hc, hw⟩ := w.early (.inl hp)
    refine wf_idle hc hw (by simp) (by simp) w.small fun r hr => ?_
    rcases List.mem_cons.1 hr with rfl | hr
    · rfl
    · exact w.no_success (w.not_begun (.inl hp)) r hr
  | computed hp hcalc =>
    obtain ⟨hc, hw⟩ := w.early (.inl hp)
    exact wf_idle hc hw (by simp) (by simp) (calcReplicators_small hcalc)
      (w.no_success (w.not_begun (.inl hp)))
  | stampedSet hp hop =>
    exact prepare_wf w.small (w.no_success (w.not_begun (.inr (.inl hp))))
      (fun _ => (w.early (.inr (.inl hp))).2) (by simp [hop]) (by simp [hop])
  | stamped hp =>
    obtain ⟨hc, hw⟩ := w.early (.inr (.inl hp))
    exact wf_idle hc hw (by simp) (by simp) w.small (w.no_success (w.not_begun (.inr (.inl hp))))
  | idle => exact w
  | casDone hp hop =>
    exact prepare_wf w.small (w.no_success (w.not_begun (.inr (.inr (.inl hp)))))
      (by simp [hop]) (fun _ => rfl) (by simp [hop])
  | casFailed hp hop =>
    obtain ⟨hc, hw⟩ := w.early (.inr (.inr (.inl hp)))
    refine wf_idle hc hw (by simp) (fun _ => by simp [respond, hop]) w.small fun r hr => ?_
    rcases List.mem_cons.1 hr with rfl | hr
    · rfl
    · exact w.no_success (w.not_begun (.inr (.inr (.inl hp)))) r hr
  | deleteDone hp hop =>
    refine Wf.respondIfAlone (prepare_wf w.small ?_ (by simp [hop]) (by simp [hop])
      (fun _ => .inl rfl))
      (.inl rfl) (by simp)
    exact w.no_success (w.not_begun (.inr (.inr (.inl hp))))
  | deleteNothing hp hop =>
    obtain ⟨hc, hw⟩ := w.early (.inr (.inr (.inl hp)))
    refine wf_idle hc hw (by simp) (fun _ => by simp [respond, hop]) w.small fun r hr => ?_
    rcases List.mem_cons.1 hr with rfl | hr
    · rfl
    · exact w.no_success (w.not_begun (.inr (.inr (.inl hp)))) r hr
  | deleteElsewhere hp hop _ hne =>
    refine Wf.respondIfAlone (prepare_wf ⟨w.small.1, by simp⟩ ?_ (by simp [hop]) (by simp [hop])
      (fun _ => .inr ⟨rfl, hne⟩)) (.inl rfl) (by simp)
    exact w.no_success (w.not_begun (.inr (.inr (.inl hp))))
  | send hp hi =>
    obtain ⟨c, hc, hu⟩ := findIdx_unsent hi
    rw [modify_sent hc]
    exact w.setCall hc (by rfl) (by rfl) (by rw [settled, hu]; rfl) (by rfl) (by simp [hp])
  | written hp hi hop =>
    have w' := w.respondIfAlone (r := .clocktime h.ct) (.inl hp) (by simp)
    exact w'.finish (by simpa using hp) (by simpa using findIdx_none hi) (fun _ => rfl)
      fun _ => rfl
  | casSent hp hi hop =>
    have w' := w.respondIfAlone (r := .clocktime h.ct) (.inl hp) (by simp)
    exact w'.finish (by simpa using hp) (by simpa using findIdx_none hi) (fun h => h)
      (by simp [hop])
  | deleteSent hp hi hop => exact w.finish hp (findIdx_none hi) (fun h => h) (by simp [hop])
  | ended => exact w

/-! ## The callbacks -/

/-- What the callback of a call does, when the call was waiting. -/
inductive Answers (limit : UInt16) (active : Bool) (h : Handler) (i : ℕ) (c : Call) :
    Except String Bool → Handler → Bool → Prop
  | answered {b : Bool} {r : Response} : (∀ ct, r = .clocktime ct → ct = h.ct) →
      Answers limit active h i c (.ok b)
        ({ h with calls := h.calls.set i { c with status := .answered } }.countDown r) false
  | again {e : String} {r₁ r₂ : UInt16} :
      Answers limit active h i c (.error e)
        { h with calls := h.calls.set i { c with attempt := c.attempt + 1 },
                 rretry := r₁, wretry := r₂ } true
  | dropped {e : String} {r : Response} {r₁ r₂ : UInt16} : c.byRhs = true →
      (∀ ct, r = .clocktime ct → ct = h.ct) →
      Answers limit active h i c (.error e)
        ({ h with calls := h.calls.set i { c with status := .failed },
                  rretry := r₁, wretry := r₂ }.countDown r) false
  | failed {e : String} {r₁ r₂ : UInt16} : c.byRhs = false →
      ¬ (active = true ∧ h.wretry + 1 ≤ limit) →
      Answers limit active h i c (.error e)
        ({ h with calls := h.calls.set i { c with status := .failed },
                  rretry := r₁, wretry := r₂ }.respond .null) false

theorem lastResponse_clocktime (h : Handler) (c : Call) (res : Except String Bool) :
    ∀ ct, h.lastResponse c res = .clocktime ct → ct = h.ct := by
  intro ct hct
  unfold lastResponse at hct
  split at hct <;> simp_all

/-- A call that is to be sent again counts up, and one that is not has no retry left. -/
theorem retry_eq (limit : UInt16) (h : Handler) (byRhs active : Bool) :
    ∃ r₁ r₂ b, (if active then h.retryIncr byRhs limit else (h, false)) =
        ({ h with rretry := r₁, wretry := r₂ }, b) ∧
      (byRhs = false → b = false → ¬ (active = true ∧ h.wretry + 1 ≤ limit)) := by
  unfold retryIncr
  split_ifs with ha hb
  · exact ⟨_, _, _, rfl, by simp [hb]⟩
  · exact ⟨_, _, _, rfl, fun _ hf hl => by simp [hl.2] at hf⟩
  · exact ⟨_, _, _, rfl, by simp [ha]⟩

theorem onReply_answers (limit : UInt16) (h : Handler) (i : ℕ) (c : Call)
    (res : Except String Bool) (active : Bool) :
    Answers limit active h i c res (h.onReply limit i c res active).1
      (h.onReply limit i c res active).2 := by
  unfold onReply
  cases res with
  | ok b => exact .answered (lastResponse_clocktime h c _)
  | error e =>
    obtain ⟨r₁, r₂, b, hr, hlast⟩ := retry_eq limit h c.byRhs active
    simp only [hr]
    cases b with
    | true => exact .again
    | false =>
      simp only [Bool.false_eq_true, if_false]
      split_ifs with hb
      · exact .dropped hb (lastResponse_clocktime _ c _)
      · exact .failed (Bool.eq_false_of_not_eq_true hb)
          (hlast (Bool.eq_false_of_not_eq_true hb) rfl)

/-- A call that ends the wait for it: the count goes down, and the last one brings the response. -/
theorem Wf.settleCall (w : h.Wf) {i : ℕ} {c c' : Call} (hc : h.calls[i]? = some c)
    (hd : c'.dest = c.dest) (hb : c'.byRhs = c.byRhs) (hw : c.status = .waiting)
    (hs : settled c' = true) (hu : c'.status ≠ .unsent)
    (hr : ∀ ct, r = .clocktime ct → ct = h.ct) {r₁ r₂ : UInt16} :
    ({ h with calls := h.calls.set i c', rretry := r₁, wretry := r₂ }.countDown r).Wf := by
  have hmem : c ∈ h.calls := List.mem_of_getElem? hc
  have hne : h.calls ≠ [] := List.ne_nil_of_mem hmem
  have hbeg : h.Begun := .inr (.inr hne)
  have hcs : settled c = false := by rw [settled, hw]; rfl
  have hcount := Counting.countP_set (p := (!settled ·)) (y := c') hc
  simp only [hcs, hs, Bool.not_false, Bool.not_true, Bool.toNat_true, Bool.toNat_false] at hcount
  -- the count was positive, so it does not wrap
  have hsub : h.op.async = false →
      (h.copyRequired - 1).toNat = (h.calls.set i c').countP (!settled ·) := by
    intro ha
    have hold := w.count hbeg ha
    rw [UInt32.toNat_sub_of_le _ _ (UInt32.le_iff_toNat_le.2 (by simp; omega))]
    simp
    omega
  have w' : { h with calls := h.calls.set i c', rretry := r₁, wretry := r₂,
                     copyRequired := h.copyRequired - 1 }.Wf := by
    refine ⟨fun hp => absurd hbeg (w.not_begun hp), w.small, fun _ => ?_, fun _ => hsub,
      w.setWrote, fun _ => w.casWrote hbeg, fun _ => w.deleteWrote hbeg, fun hp x hx => ?_,
      fun r hm hsu => ?_⟩
    · exact (map_dest_set hc hd hb).trans (w.prepared hbeg)
    · rcases List.mem_or_eq_of_mem_set hx with hx | rfl
      · exact w.sent hp x hx
      · exact hu
    · obtain ⟨-, hct, hall⟩ := w.acked r hm hsu
      refine ⟨.inr (.inr (by simpa using hne)), hct, fun ha => ?_⟩
      simp [hall ha c hmem] at hcs
  unfold countDown
  simp only []
  split_ifs with hz
  · refine w'.respond fun _ => ⟨.inr (.inr (by simpa using hne)), hr, fun ha x hx => ?_⟩
    have hall : (h.calls.set i c').countP (!settled ·) = 0 := by
      rw [← hsub ha, hz]
      rfl
    simpa using List.countP_eq_zero.1 hall x hx
  · exact w'

theorem Answers.wf {limit : UInt16} {active : Bool} {i : ℕ} {c : Call} {res : Except String Bool}
    {again : Bool} (m : Answers limit active h i c res h' again) (w : h.Wf)
    (hc : h.calls[i]? = some c) (hw : c.status = .waiting) : h'.Wf := by
  have hcs : settled c = false := by rw [settled, hw]; rfl
  cases m with
  | answered hr => exact w.settleCall hc (by rfl) (by rfl) hw (by rfl) (by simp) hr
  | again => exact w.setCall hc (by rfl) (by rfl) hcs (by rw [settled, hw]; rfl) (by simp [hw])
  | dropped hb hr =>
    exact w.settleCall hc (by rfl) (by rfl) hw (by simp [settled, hb]) (by simp) hr
  | failed hb _ =>
    refine Wf.respond (w.setCall hc (by rfl) (by rfl) hcs ?_ (by simp)) (by simp [Response.success])
    rw [settled, hb]
    rfl

/-! ## What stays -/

/-- `h'` is a later state of the handler `h`. -/
structure Later (h h' : Handler) : Prop where
  self : h'.self = h.self
  op : h'.op = h.op
  begun : h.Begun → h'.Begun
  ct : h.Begun → h'.ct = h.ct
  reps : h.Begun → h'.reps = h.reps
  dests : h.Begun → h'.calls.map (fun c => (c.dest, c.byRhs)) =
    h.calls.map (fun c => (c.dest, c.byRhs))
  wrote : h.wrote = true → h'.wrote = true

theorem Later.refl (h : Handler) : h.Later h :=
  ⟨rfl, rfl, fun h => h, fun _ => rfl, fun _ => rfl, fun _ => rfl, fun h => h⟩

theorem Later.rawVal (l : h.Later h') (hb : h.Begun) : h'.rawVal = h.rawVal := by
  unfold Handler.rawVal
  rw [l.op, l.ct hb]

theorem Later.call (l : h.Later h') {j : ℕ} {c : Call} (hc : h.calls[j]? = some c) :
    ∃ c', h'.calls[j]? = some c' ∧ c'.dest = c.dest ∧ c'.byRhs = c.byRhs := by
  have hb := begun_of_mem (List.mem_of_getElem? hc)
  have hd := congrArg (·[j]?) (l.dests hb)
  simp only [List.getElem?_map, hc, Option.map_some] at hd
  obtain ⟨c', hc', he⟩ := Option.map_eq_some_iff.1 hd
  exact ⟨c', hc', congrArg Prod.fst he, congrArg Prod.snd he⟩

theorem Moves.later (m : Moves key s h s' h' o) (w : h.Wf) : h.Later h' := by
  have early : h.pc = .calc ∨ h.pc = .stamp ∨ h.pc = .apply ∨ h.pc = .refused →
      h'.self = h.self → h'.op = h.op → h.Later h' := by
    intro hp hs ho
    have hb := w.not_begun hp
    exact ⟨hs, ho, fun h => absurd h hb, fun h => absurd h hb, fun h => absurd h hb,
      fun h => absurd h hb, fun hw => absurd (.inr (.inl hw)) hb⟩
  cases m with
  | refused hp => exact early (.inl hp) rfl rfl
  | computed hp => exact early (.inl hp) rfl rfl
  | stampedSet hp => exact early (.inr (.inl hp)) rfl rfl
  | stamped hp => exact early (.inr (.inl hp)) rfl rfl
  | idle => exact .refl h
  | casDone hp => exact early (.inr (.inr (.inl hp))) rfl rfl
  | casFailed hp => exact early (.inr (.inr (.inl hp))) rfl rfl
  | deleteDone hp => exact early (.inr (.inr (.inl hp))) (by simp [prepare]) (by simp [prepare])
  | deleteNothing hp => exact early (.inr (.inr (.inl hp))) rfl rfl
  | deleteElsewhere hp =>
    exact early (.inr (.inr (.inl hp))) (by simp [prepare]) (by simp [prepare])
  | send hp hi =>
    obtain ⟨c, hc, hu⟩ := findIdx_unsent hi
    rw [modify_sent hc]
    exact ⟨rfl, rfl, fun _ => .inl hp, fun _ => rfl, fun _ => rfl,
      fun _ => map_dest_set hc (by rfl) (by rfl), fun h => h⟩
  | written hp hi hop =>
    exact ⟨by simp, by simp, fun _ => .inr (.inl rfl), fun _ => by simp, fun _ => by simp,
      fun _ => by simp, fun _ => rfl⟩
  | casSent hp hi hop =>
    have hw := w.casWrote (.inl hp) ⟨_, hop⟩
    exact ⟨by simp, by simp, fun _ => .inr (.inl (by simpa using hw)), fun _ => by simp,
      fun _ => by simp, fun _ => by simp, fun _ => by simpa using hw⟩
  | deleteSent hp hi hop =>
    exact ⟨rfl, rfl, fun _ => w.begun_finish hp (fun h => h) (by simp [hop]), fun _ => rfl,
      fun _ => rfl, fun _ => rfl, fun h => h⟩
  | ended => exact .refl h

theorem countDown_eq (h : Handler) (r : Response) :
    ∃ n rs, h.countDown r = { h with copyRequired := n, responses := rs } := by
  unfold countDown
  simp only []
  split_ifs <;> exact ⟨_, _, rfl⟩

/-- A callback changes its call, and what the handler keeps for the callbacks. -/
theorem Answers.eq {limit : UInt16} {active : Bool} {i : ℕ} {c : Call} {res : Except String Bool}
    {again : Bool} (m : Answers limit active h i c res h' again) : ∃ c' n rs r₁ r₂,
      h' = { h with calls := h.calls.set i c', copyRequired := n, responses := rs,
                    rretry := r₁, wretry := r₂ } ∧
      c'.dest = c.dest ∧ c'.byRhs = c.byRhs ∧
      ((∃ b, res = .ok b) ∧ again = false ∧ c' = { c with status := .answered } ∨
        (∃ e, res = .error e) ∧ (again = true ∧ c' = { c with attempt := c.attempt + 1 } ∨
          again = false ∧ c' = { c with status := .failed } ∧
            (c.byRhs = false → ¬ (active = true ∧ h.wretry + 1 ≤ limit)))) := by
  cases m with
  | @answered b r hr =>
    obtain ⟨n, rs, he⟩ := countDown_eq
      { h with calls := h.calls.set i { c with status := .answered } } r
    exact ⟨_, n, rs, h.rretry, h.wretry, he, rfl, rfl, .inl ⟨⟨b, rfl⟩, rfl, rfl⟩⟩
  | @again e r₁ r₂ =>
    exact ⟨_, h.copyRequired, h.responses, r₁, r₂, rfl, rfl, rfl, .inr ⟨⟨e, rfl⟩, .inl ⟨rfl, rfl⟩⟩⟩
  | @dropped e r r₁ r₂ hb hr =>
    obtain ⟨n, rs, he⟩ := countDown_eq
      { h with calls := h.calls.set i { c with status := .failed }, rretry := r₁, wretry := r₂ } r
    exact ⟨_, n, rs, r₁, r₂, he, rfl, rfl, .inr ⟨⟨e, rfl⟩, .inr ⟨rfl, rfl, by simp [hb]⟩⟩⟩
  | @failed e r₁ r₂ hb hl =>
    exact ⟨_, h.copyRequired, _, r₁, r₂, rfl, rfl, rfl,
      .inr ⟨⟨e, rfl⟩, .inr ⟨rfl, rfl, fun _ => hl⟩⟩⟩

theorem Answers.later {limit : UInt16} {active : Bool} {i : ℕ} {c : Call} {res : Except String Bool}
    {again : Bool} (m : Answers limit active h i c res h' again) (hc : h.calls[i]? = some c) :
    h.Later h' := by
  obtain ⟨c', n, rs, r₁, r₂, rfl, hd, hb, -⟩ := m.eq
  have hne : h.calls ≠ [] := List.ne_nil_of_mem (List.mem_of_getElem? hc)
  exact ⟨rfl, rfl, fun _ => .inr (.inr (by simpa using hne)), fun _ => rfl, fun _ => rfl,
    fun _ => map_dest_set hc hd hb, fun h => h⟩

/-- A call that was answered was so before, or by this callback. -/
theorem Answers.answered_of_mem {limit : UInt16} {active : Bool} {i : ℕ} {c : Call}
    {res : Except String Bool} {again : Bool} (m : Answers limit active h i c res h' again)
    (hw : c.status = .waiting) {x : Call} (hx : x ∈ h'.calls) (hs : x.status = .answered) :
    x ∈ h.calls ∨ (∃ b, res = .ok b) ∧ x.dest = c.dest := by
  obtain ⟨c', n, rs, r₁, r₂, rfl, hd, -, hres⟩ := m.eq
  rcases List.mem_or_eq_of_mem_set hx with hx | rfl
  · exact .inl hx
  · rcases hres with ⟨hok, -⟩ | ⟨-, ⟨-, he⟩ | ⟨-, he, -⟩⟩
    · exact .inr ⟨hok, hd⟩
    · simp [he, hw] at hs
    · simp [he] at hs

/-- A call that is neither to be sent nor to be answered was so before. -/
theorem Moves.mem_of_over (m : Moves key s h s' h' o) {x : Call} (hx : x ∈ h'.calls)
    (hs : x.status = .answered ∨ x.status = .failed) : x ∈ h.calls := by
  have hprep : ∀ g : Handler, x ∉ g.prepare.calls := by
    intro g hg
    simp only [prepare, List.mem_append, List.mem_map] at hg
    rcases hg with ⟨a, -, rfl⟩ | ⟨a, -, rfl⟩ <;> simp at hs
  cases m with
  | stampedSet | casDone => exact absurd hx (hprep _)
  | deleteDone | deleteElsewhere =>
    rw [respondIfAlone_calls] at hx
    exact absurd hx (hprep _)
  | send hp hi =>
    obtain ⟨c, hc, -⟩ := findIdx_unsent hi
    rw [modify_sent hc] at hx
    rcases List.mem_or_eq_of_mem_set hx with hx | rfl
    · exact hx
    · simp at hs
  | written | casSent => simpa using hx
  | _ => exact hx

/-- A call that has been sent was so before, or is the one that this step sends. -/
theorem Moves.sent_of_getElem (m : Moves key s h s' h' o) {j : ℕ} {x : Call}
    (hx : h'.calls[j]? = some x) (hs : x.status ≠ .unsent) :
    h.calls[j]? = some x ∨ o = some j := by
  have hprep : ∀ g : Handler, g.prepare.calls[j]? ≠ some x := by
    intro g hg
    have hg := List.mem_of_getElem? hg
    simp only [prepare, List.mem_append, List.mem_map] at hg
    rcases hg with ⟨a, -, rfl⟩ | ⟨a, -, rfl⟩ <;> simp at hs
  cases m with
  | stampedSet | casDone => exact absurd hx (hprep _)
  | deleteDone | deleteElsewhere =>
    rw [respondIfAlone_calls] at hx
    exact absurd hx (hprep _)
  | @send i hp hi =>
    by_cases hij : i = j
    · exact .inr (by rw [hij])
    · rw [List.getElem?_modify_ne _ _ hij] at hx
      exact .inl hx
  | written | casSent => exact .inl (by simpa using hx)
  | _ => exact .inl hx

/-- The handler has its clocktime. -/
def Stamped (h : Handler) : Prop := h.pc = .apply ∨ h.pc = .send ∨ h.pc = .done

theorem Wf.stamped (w : h.Wf) (hb : h.Begun) : h.Stamped := by
  by_contra hn
  refine w.not_begun ?_ hb
  cases hp : h.pc <;> simp_all [Stamped]

/-- A clocktime is kept or issued. -/
theorem Moves.ct_of_stamped (m : Moves key s h s' h' o) (hs : h'.Stamped) :
    h.Stamped ∧ h'.ct = h.ct ∨ h.pc = .stamp ∧ h'.ct = s.clock.clockIncrClocktime.1 := by
  cases m with
  | refused | computed => simp [Stamped] at hs
  | stampedSet hp | stamped hp => exact .inr ⟨hp, rfl⟩
  | idle | ended => exact .inl ⟨hs, rfl⟩
  | casDone hp | casFailed hp | deleteNothing hp => exact .inl ⟨.inl hp, rfl⟩
  | deleteDone hp | deleteElsewhere hp => exact .inl ⟨.inl hp, by simp [prepare]⟩
  | send hp | deleteSent hp => exact .inl ⟨.inr (.inl hp), rfl⟩
  | written hp | casSent hp => exact .inl ⟨.inr (.inl hp), by simp⟩

theorem Moves.stamped_of_wrote (m : Moves key s h s' h' o) (hw : h'.wrote = true)
    (hn : h.wrote = false) : h.Stamped := by
  cases m with
  | refused | computed | stampedSet | stamped | idle | ended => simp_all [respond, prepare]
  | casDone hp | casFailed hp | deleteNothing hp | deleteDone hp | deleteElsewhere hp =>
    exact .inl hp
  | send hp | deleteSent hp | written hp | casSent hp => exact .inr (.inl hp)

/-- The handler has computed its replicas. -/
def Computed (h : Handler) : Prop := h.pc ≠ .calc ∧ h.pc ≠ .refused

theorem Wf.computed (w : h.Wf) (hb : h.Begun) : h.Computed :=
  ⟨fun hp => w.not_begun (.inl hp) hb, fun hp => w.not_begun (.inr (.inr (.inr hp))) hb⟩

/-- Replicas are kept, or computed, or those of `whs` are given up. -/
theorem Moves.reps (m : Moves key s h s' h' o) (hc : h'.Computed) :
    h.Computed ∧ h'.reps = h.reps ∨
    h.pc = .calc ∧ calcReplicators h.self s.whs s.rhs key.hash = .ok h'.reps ∨
    h.Computed ∧ h.op.isDelete = true ∧ h.pc = .apply ∧ h.reps.rrepto ≠ [] ∧
      (s.storage.remove key.raw h.ct).2 = false ∧ h'.reps = { h.reps with wrepto := [] } := by
  have computed : h.pc = .stamp ∨ h.pc = .apply ∨ h.pc = .send → h.Computed := by
    rintro (hp | hp | hp) <;> simp [Computed, hp]
  cases m with
  | refused => simp [Computed] at hc
  | computed hp he => exact .inr (.inl ⟨hp, he⟩)
  | stampedSet hp | stamped hp => exact .inl ⟨computed (.inl hp), rfl⟩
  | casDone hp | casFailed hp | deleteNothing hp => exact .inl ⟨computed (.inr (.inl hp)), rfl⟩
  | deleteDone hp => exact .inl ⟨computed (.inr (.inl hp)), by simp [prepare]⟩
  | deleteElsewhere hp hop hr hne =>
    exact .inr (.inr ⟨computed (.inr (.inl hp)), by rw [hop]; rfl, hp, hne, hr, by simp [prepare]⟩)
  | send hp | deleteSent hp => exact .inl ⟨computed (.inr (.inr hp)), rfl⟩
  | written hp | casSent hp => exact .inl ⟨computed (.inr (.inr hp)), by simp⟩
  | idle | ended => exact .inl ⟨hc, rfl⟩

/-- A `Delete` comes to its calls by its write, or for the nodes of `rhs` alone. -/
theorem Moves.begun_of_delete (m : Moves key s h s' h' o) (hd : h.op.isDelete = true)
    (hb : h'.Begun) : h.Begun ∨ h'.wrote = true ∨ h.pc = .apply ∧ h.reps.rrepto ≠ [] ∧
      (s.storage.remove key.raw h.ct).2 = false := by
  have nodelete : ∀ op : Op, h.op = op → op.isDelete = true := by
    rintro op rfl
    exact hd
  cases m with
  | stampedSet _ hop | written _ _ hop => exact absurd (nodelete _ hop) (by simp [Op.isDelete])
  | casDone _ hop | casFailed _ hop | casSent _ _ hop =>
    exact absurd (nodelete _ hop) (by simp [Op.isDelete])
  | refused | computed | stamped | deleteNothing =>
    exact .inl (.inr (by simpa [Begun, respond] using hb))
  | deleteDone => exact .inr (.inl (by simp [prepare]))
  | deleteElsewhere hp _ hr hne => exact .inr (.inr ⟨hp, hne, hr⟩)
  | send hp | deleteSent hp => exact .inl (.inl hp)
  | idle | ended => exact .inl hb

end Handler

end Kumofs.Server
