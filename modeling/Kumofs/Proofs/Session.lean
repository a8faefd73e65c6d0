import Kumofs.Lib.Count
import Kumofs.Rpc.Session
import Mathlib.Algebra.Ring.Nat

/-!
# The callbacks of a session

A call's callback is with its caller, in the partition of its message id, or called: one of these,
once. A step takes it from one of these places to the next, or leaves it, so this is an invariant of
every interleaving. As the ids differ, an entry is only ever found by its own call's response.
-/

namespace Kumofs.Rpc

open Machine

variable {τ : Type} {w w' : World τ}

/-! ## The partitions -/

section Callbacks

variable {cbs : Callbacks} {msgid : UInt32} {e : CallbackEntry} {n : ℕ}

/-- The entries of a call. -/
def Callbacks.ofCall (cbs : Callbacks) (n : ℕ) : ℕ := cbs.countP (·.2.call == n)

theorem ofCall_insert (hnew : ∀ p ∈ cbs, p.1 ≠ msgid) :
    (cbs.insert msgid e).ofCall n = cbs.ofCall n + (e.call == n).toNat := by
  have hno : cbs.any (·.1 == msgid) = false := by
    rw [List.any_eq_false]
    intro p hp
    simpa using hnew p hp
  have hperm := List.perm_orderedInsert (fun p q : UInt32 × CallbackEntry => p.1 ≤ q.1)
    (msgid, e) cbs
  unfold Callbacks.insert Callbacks.ofCall
  rw [if_neg (by simp [hno]), hperm.countP_eq, List.countP_cons]
  cases e.call == n <;> rfl

theorem mem_insert {p : UInt32 × CallbackEntry} (hp : p ∈ cbs.insert msgid e) :
    p ∈ cbs ∨ p = (msgid, e) := by
  unfold Callbacks.insert at hp
  split_ifs at hp
  · obtain ⟨q, hq, rfl⟩ := List.mem_map.1 hp
    split_ifs
    · exact .inr rfl
    · exact .inl hq
  · exact ((List.mem_orderedInsert _).1 hp).symm

theorem out_spec {rest : Callbacks} (h : cbs.out msgid = some (e, rest)) :
    (msgid, e) ∈ cbs ∧ (∀ p ∈ rest, p ∈ cbs) ∧
      ∀ n, rest.ofCall n + (e.call == n).toNat = cbs.ofCall n := by
  unfold Callbacks.out at h
  rw [Option.map_eq_some_iff] at h
  obtain ⟨⟨k, x⟩, hfind, hx⟩ := h
  simp only [Prod.mk.injEq] at hx
  obtain ⟨rfl, rfl⟩ := hx
  have hk : k = msgid := by simpa using List.find?_some hfind
  subst hk
  refine ⟨List.mem_of_find?_eq_some hfind, fun p hp => List.mem_of_mem_eraseP hp, fun n => ?_⟩
  obtain ⟨-, as, bs, hcbs, has⟩ := List.find?_eq_some_iff_append.1 hfind
  have herase : cbs.eraseP (·.1 == k) = as ++ bs := by
    rw [hcbs, List.eraseP_append_right _ (by simpa using has), List.eraseP_cons_of_pos (by simp)]
  unfold Callbacks.ofCall
  rw [herase, hcbs, List.countP_append, List.countP_append, List.countP_cons]
  cases x.call == n <;> simp [Nat.add_assoc]

theorem ofCall_stepTimeout (n : ℕ) :
    cbs.stepTimeout.1.ofCall n + cbs.stepTimeout.2.ofCall n = cbs.ofCall n := by
  unfold Callbacks.stepTimeout Callbacks.ofCall
  simp only [List.countP_map, Function.comp_def]
  rw [← List.countP_eq_countP_filter_add]

theorem mem_stepTimeout {p : UInt32 × CallbackEntry}
    (hp : p ∈ cbs.stepTimeout.1 ∨ p ∈ cbs.stepTimeout.2) :
    ∃ q ∈ cbs, q.1 = p.1 ∧ q.2.call = p.2.call := by
  rcases hp with hp | hp
  · obtain ⟨q, hq, rfl⟩ := List.mem_map.1 hp
    exact ⟨q, List.mem_of_mem_filter hq, rfl, rfl⟩
  · exact ⟨p, List.mem_of_mem_filter hp, rfl, rfl⟩

end Callbacks

/-! ## The steps -/

/-- What a step makes of the world. -/
inductive Stepped (w : World τ) [DecidableEq τ] : Act τ → World τ → Prop
  | call (n : UInt16) : Stepped w (.call n) (w.call n)
  | insert {k : ℕ} {c : Calling} : w.calling[k]? = some c → c.inserted = false →
      Stepped w (.insert k) (w.insert k c)
  | submit {k : ℕ} {c : Calling} : w.calling[k]? = some c → c.inserted = true →
      Stepped w (.submit k) (w.submit k c)
  | processResponse (msgid : UInt32) : Stepped w (.processResponse msgid) (w.processResponse msgid)
  | stepTimeout : Stepped w .stepTimeout { w with sweeps := w.sweeps ++ [⟨.eraseIf, 0⟩] }
  | forceLost : Stepped w .forceLost { w.lose with sweeps := w.sweeps ++ [⟨.forEachClear, 0⟩] }
  | sweep (k : ℕ) (x : Sweep) : Stepped w (.sweep k) (w.sweep k x)
  | bind (t : τ) : Stepped w (.bind t) (w.bind t)
  | swap {k : ℕ} {t : τ} : w.binding[k]? = some (.bound t) → Stepped w (.swap k) (w.swap k t)
  | send {k : ℕ} {t : τ} {pendings : List ℕ} : w.binding[k]? = some (.sending t pendings) →
      Stepped w (.send k) (w.send k t pendings)
  | unbind (t : τ) : Stepped w (.unbind t) (w.unbind t)
  | destroy : w.calling = [] → w.binding = [] → Stepped w .destroy w.destroy

theorem stepped_of_step [DecidableEq τ] {a : Act τ} (hs : w.step a = some w') :
    w.destroyed = false ∧ Stepped w a w' := by
  unfold World.step at hs
  rw [ite_eq_iff, or_iff_right (by simp)] at hs
  obtain ⟨hd, hs⟩ := hs
  refine ⟨Bool.eq_false_of_not_eq_true hd, ?_⟩
  cases a with
  | call n =>
    cases hs
    exact .call n
  | insert k =>
    simp only [] at hs
    split at hs
    · rename_i c hc
      split_ifs at hs with hin
      cases hs
      exact .insert hc (Bool.eq_false_of_not_eq_true hin)
    · cases hs
  | submit k =>
    simp only [] at hs
    split at hs
    · rename_i c hc
      split_ifs at hs with hin
      cases hs
      exact .submit hc hin
    · cases hs
  | processResponse msgid =>
    cases hs
    exact .processResponse msgid
  | stepTimeout =>
    cases hs
    exact .stepTimeout
  | forceLost =>
    cases hs
    exact .forceLost
  | sweep k =>
    obtain ⟨x, -, rfl⟩ := Option.map_eq_some_iff.1 hs
    exact .sweep k x
  | bind t =>
    cases hs
    exact .bind t
  | swap k =>
    simp only [] at hs
    split at hs
    · rename_i t ht
      cases hs
      exact .swap ht
    all_goals cases hs
  | send k =>
    simp only [] at hs
    split at hs
    · rename_i t pendings ht
      cases hs
      exact .send ht
    all_goals cases hs
  | unbind t =>
    cases hs
    exact .unbind t
  | destroy =>
    simp only [] at hs
    split_ifs at hs with hnone
    cases hs
    exact .destroy hnone.1 hnone.2.2

/-! ## The callbacks -/

/-- The times a call's callback was called. -/
def World.ran (w : World τ) (n : ℕ) : ℕ := w.runs.countP (·.call == n)

/-- The callback of a call is not registered yet. -/
def World.unregistered (w : World τ) (n : ℕ) : ℕ :=
  w.calling.countP fun c => c.call == n && !c.inserted

/-- The message ids are the numbers from one on, and whatever goes by one is of that call. -/
structure Owned (w : World τ) : Prop where
  rr : w.session.msgidRr = UInt32.ofNat w.msgids.length
  ids : ∀ n < w.msgids.length, w.msgids[n]? = some (UInt32.ofNat (n + 1))
  calling : ∀ c ∈ w.calling, w.msgids[c.call]? = some c.msgid
  table : ∀ i, ∀ p ∈ w.session.callbacks i, partition p.1 = i ∧ w.msgids[p.2.call]? = some p.1
  runs : ∀ r ∈ w.runs, w.msgids[r.call]? = some r.msgid

/-- A call's callback is at one place. -/
structure Registered (w : World τ) : Prop where
  owned : Owned w
  once : ∀ n msgid, w.msgids[n]? = some msgid →
    w.unregistered n + (w.session.callbacks (partition msgid)).ofCall n + w.ran n = 1
  ended : w.destroyed = true → w.calling = [] ∧ ∀ i < partitionNum, w.session.callbacks i = []

theorem Owned.inj (h : Owned w) (hlen : w.msgids.length < 2 ^ 32) {n m : ℕ} {msgid : UInt32}
    (hn : w.msgids[n]? = some msgid) (hm : w.msgids[m]? = some msgid) : n = m := by
  have hn' := (List.getElem?_eq_some_iff.1 hn).1
  have hm' := (List.getElem?_eq_some_iff.1 hm).1
  rw [h.ids n hn', Option.some.injEq] at hn
  rw [h.ids m hm', Option.some.injEq] at hm
  have he := congrArg UInt32.toNat (hn.trans hm.symm)
  have hsize : UInt32.size = 2 ^ 32 := rfl
  rw [UInt32.toNat_ofNat_of_lt' (by omega), UInt32.toNat_ofNat_of_lt' (by omega)] at he
  omega

theorem getElem?_concat_of_some {α : Type} {l : List α} {n : ℕ} {x y : α} (h : l[n]? = some x) :
    (l ++ [y])[n]? = some x := by
  rw [List.getElem?_append_left (List.getElem?_eq_some_iff.1 h).1, h]

theorem Owned.call (h : Owned w) (timeoutSteps : UInt16) : Owned (w.call timeoutSteps) := by
  have hrr : w.session.msgidRr + 1 = UInt32.ofNat (w.msgids.length + 1) := by
    rw [h.rr, UInt32.ofNat_add]
    rfl
  refine ⟨?_, ?_, ?_, ?_, ?_⟩
  · simpa [World.call] using hrr
  · intro n hn
    simp only [World.call, List.length_append, List.length_singleton] at hn ⊢
    rcases Nat.lt_or_ge n w.msgids.length with hlt | hge
    · exact getElem?_concat_of_some (h.ids n hlt)
    · obtain rfl : n = w.msgids.length := by omega
      rw [List.getElem?_concat_length, hrr]
  · intro c hc
    rcases List.mem_append.1 hc with hc | hc
    · exact getElem?_concat_of_some (h.calling c hc)
    · rw [List.mem_singleton.1 hc]
      exact List.getElem?_concat_length
  · intro i p hp
    obtain ⟨hpart, hid⟩ := h.table i p hp
    exact ⟨hpart, getElem?_concat_of_some hid⟩
  · intro r hr
    exact getElem?_concat_of_some (h.runs r hr)

/-- Nothing is of a call that has not been made. -/
theorem Owned.nothing (h : Owned w) {n : ℕ} (hn : w.msgids[n]? = none) (i : ℕ) :
    w.unregistered n = 0 ∧ (w.session.callbacks i).ofCall n = 0 ∧ w.ran n = 0 := by
  have hnone : ∀ {m : ℕ} {x : UInt32}, w.msgids[m]? = some x → m ≠ n := by
    rintro m x hm rfl
    rw [hn] at hm
    cases hm
  refine ⟨?_, ?_, ?_⟩
  · unfold World.unregistered
    rw [List.countP_eq_zero]
    intro c hc
    simp [hnone (h.calling c hc)]
  · unfold Callbacks.ofCall
    rw [List.countP_eq_zero]
    intro p hp
    simp [hnone (h.table _ p hp).2]
  · unfold World.ran
    rw [List.countP_eq_zero]
    intro r hr
    simp [hnone (h.runs r hr)]

/-- The session is there. -/
theorem registered_of_live (hd : w.destroyed = false) (ho : Owned w)
    (honce : ∀ n msgid, w.msgids[n]? = some msgid →
      w.unregistered n + (w.session.callbacks (partition msgid)).ofCall n + w.ran n = 1) :
    Registered w :=
  ⟨ho, honce, fun hdes => absurd (hd.symm.trans hdes) Bool.false_ne_true⟩

theorem Registered.call {timeoutSteps : UInt16} (h : Registered w) (hd : w.destroyed = false) :
    Registered (w.call timeoutSteps) := by
  refine registered_of_live hd (h.owned.call timeoutSteps) fun n msgid hn => ?_
  have hunreg : (w.call timeoutSteps).unregistered n =
      w.unregistered n + (w.msgids.length == n).toNat := by
    unfold World.unregistered World.call
    rw [List.countP_append, List.countP_singleton]
    cases w.msgids.length == n <;> rfl
  rw [hunreg]
  show _ + (w.session.callbacks (partition msgid)).ofCall n + w.ran n = 1
  simp only [World.call] at hn
  rcases Nat.lt_or_ge n w.msgids.length with hlt | hge
  · rw [List.getElem?_append_left hlt] at hn
    have hne : (w.msgids.length == n) = false := by simpa using by omega
    rw [hne]
    exact h.once n msgid hn
  · obtain rfl : n = w.msgids.length := by
      have := (List.getElem?_eq_some_iff.1 hn).1
      simp only [List.length_append, List.length_singleton] at this
      omega
    obtain ⟨hcalling, htable, hran⟩ :=
      h.owned.nothing (List.getElem?_eq_none le_rfl) (partition msgid)
    rw [hcalling, htable, hran]
    simp

theorem Registered.insert {k : ℕ} {c : Calling} (h : Registered w)
    (hlen : w.msgids.length < 2 ^ 32) (hd : w.destroyed = false) (hc : w.calling[k]? = some c)
    (hnot : c.inserted = false) : Registered (w.insert k c) := by
  have hmem : c ∈ w.calling := List.mem_of_getElem? hc
  have hid := h.owned.calling c hmem
  have hunreg : ∀ n, (w.insert k c).unregistered n + (c.call == n).toNat = w.unregistered n := by
    intro n
    have := Counting.countP_set (p := fun c : Calling => c.call == n && !c.inserted)
      (y := { c with inserted := true }) hc
    simpa [World.unregistered, World.insert, World.setCallbacks, hnot] using this
  -- the entry of that message id would be the call's own
  have hnew : ∀ p ∈ w.session.callbacks (partition c.msgid), p.1 ≠ c.msgid := by
    intro p hp he
    have hcall : p.2.call = c.call :=
      h.owned.inj hlen ((h.owned.table _ p hp).2.trans (by rw [he])) hid
    have hpos : 0 < (w.session.callbacks (partition c.msgid)).ofCall c.call :=
      Counting.countP_pos_of_mem hp (by simpa using hcall)
    have hone := h.once c.call c.msgid hid
    have hless := hunreg c.call
    simp only [beq_self_eq_true, Bool.toNat_true] at hless
    omega
  refine registered_of_live hd ⟨h.owned.rr, h.owned.ids, ?_, ?_, h.owned.runs⟩ ?_
  · intro x hx
    rcases List.mem_or_eq_of_mem_set hx with hx | rfl
    · exact h.owned.calling x hx
    · exact hid
  · intro i p hp
    by_cases hi : i = partition c.msgid
    · subst hi
      have hp : p ∈ (w.session.callbacks (partition c.msgid)).insert c.msgid
          ⟨c.call, c.timeoutSteps⟩ := by
        simpa [World.insert, World.setCallbacks] using hp
      rcases mem_insert hp with hp | rfl
      · exact h.owned.table _ p hp
      · exact ⟨rfl, hid⟩
    · have hp : p ∈ w.session.callbacks i := by
        simpa [World.insert, World.setCallbacks, Function.update_of_ne hi] using hp
      exact h.owned.table i p hp
  · intro n msgid (hn : w.msgids[n]? = some msgid)
    have hless := hunreg n
    have hone := h.once n msgid hn
    show (w.insert k c).unregistered n +
      (Function.update w.session.callbacks (partition c.msgid) _ (partition msgid)).ofCall n +
        w.ran n = 1
    by_cases hpart : partition msgid = partition c.msgid
    · rw [hpart, Function.update_self, ofCall_insert hnew]
      rw [hpart] at hone
      simp only
      omega
    · -- another partition is another call's
      have hne : c.call ≠ n := by
        rintro rfl
        rw [hid, Option.some.injEq] at hn
        exact hpart (by rw [hn])
      rw [Function.update_of_ne hpart]
      have hzero : (c.call == n).toNat = 0 := by simp [hne]
      omega

/-- Entries that leave a partition are called. -/
theorem Registered.move {i : ℕ} {o : Outcome} {kept gone : Callbacks} (h : Registered w)
    (hd : w.destroyed = false)
    (hmem : ∀ p, p ∈ kept ∨ p ∈ gone →
      ∃ q ∈ w.session.callbacks i, q.1 = p.1 ∧ q.2.call = p.2.call)
    (hcount : ∀ n, kept.ofCall n + gone.ofCall n = (w.session.callbacks i).ofCall n) :
    Registered ((w.setCallbacks i kept).run o gone) := by
  have hof : ∀ p, p ∈ kept ∨ p ∈ gone → partition p.1 = i ∧ w.msgids[p.2.call]? = some p.1 := by
    intro p hp
    obtain ⟨q, hq, hkey, hcall⟩ := hmem p hp
    rw [← hkey, ← hcall]
    exact h.owned.table i q hq
  refine registered_of_live hd ⟨h.owned.rr, h.owned.ids, h.owned.calling, ?_, ?_⟩ ?_
  · intro j p hp
    by_cases hj : j = i
    · subst hj
      exact hof p (.inl (by simpa [World.run, World.setCallbacks] using hp))
    · refine h.owned.table j p ?_
      simpa [World.run, World.setCallbacks, Function.update_of_ne hj] using hp
  · intro r hr
    rcases List.mem_append.1 hr with hr | hr
    · exact h.owned.runs r hr
    · obtain ⟨p, hp, rfl⟩ := List.mem_map.1 hr
      exact (hof p (.inr hp)).2
  · intro n msgid (hn : w.msgids[n]? = some msgid)
    have hran : ((w.setCallbacks i kept).run o gone).ran n = w.ran n + gone.ofCall n := by
      unfold World.ran World.run Callbacks.ofCall
      rw [List.countP_append, List.countP_map]
      rfl
    have hone := h.once n msgid hn
    have hsum := hcount n
    rw [hran]
    show w.unregistered n + (Function.update w.session.callbacks i kept
      (partition msgid)).ofCall n + (w.ran n + gone.ofCall n) = 1
    by_cases hpart : partition msgid = i
    · rw [hpart, Function.update_self]
      rw [hpart] at hone
      omega
    · have hzero : gone.ofCall n = 0 := by
        unfold Callbacks.ofCall
        rw [List.countP_eq_zero]
        intro p hp hcall
        obtain ⟨hi, hid⟩ := hof p (.inr hp)
        rw [show p.2.call = n by simpa using hcall, hn, Option.some.injEq] at hid
        exact hpart (hid ▸ hi)
      rw [Function.update_of_ne hpart, hzero]
      omega

theorem Registered.clear {i : ℕ} (h : Registered w) (hd : w.destroyed = false) :
    Registered (w.clear i) :=
  h.move hd (fun p hp => ⟨p, hp.resolve_left List.not_mem_nil, rfl, rfl⟩)
    fun _ => Nat.zero_add _

theorem Registered.stepTimeout {i : ℕ} (h : Registered w) (hd : w.destroyed = false) :
    Registered (w.stepTimeout i) :=
  h.move hd (fun _ hp => mem_stepTimeout hp) ofCall_stepTimeout

theorem Registered.processResponse {msgid : UInt32} (h : Registered w)
    (hd : w.destroyed = false) : Registered (w.processResponse msgid) := by
  unfold World.processResponse
  split
  · exact h
  · rename_i e cbs hout
    obtain ⟨hmem, hsub, hcount⟩ := out_spec hout
    refine h.move hd ?_ ?_
    · rintro p (hp | hp)
      · exact ⟨p, hsub p hp, rfl, rfl⟩
      · rw [List.mem_singleton.1 hp]
        exact ⟨_, hmem, rfl, rfl⟩
    · intro n
      rw [← hcount n]
      congr 1

/-- The parts of the world that have no callbacks. -/
theorem Registered.congr (h : Registered w) (hrr : w'.session.msgidRr = w.session.msgidRr)
    (hcbs : w'.session.callbacks = w.session.callbacks) (hids : w'.msgids = w.msgids)
    (hcalling : w'.calling = w.calling) (hruns : w'.runs = w.runs)
    (hd : w'.destroyed = w.destroyed) : Registered w' := by
  refine ⟨⟨by rw [hrr, hids]; exact h.owned.rr, by rw [hids]; exact h.owned.ids,
    by rw [hcalling, hids]; exact h.owned.calling, by rw [hcbs, hids]; exact h.owned.table,
    by rw [hruns, hids]; exact h.owned.runs⟩, ?_, by rw [hd, hcalling, hcbs]; exact h.ended⟩
  intro n msgid hn
  unfold World.unregistered World.ran
  rw [hcalling, hcbs, hruns]
  exact h.once n msgid (hids ▸ hn)

theorem Registered.submit {k : ℕ} {c : Calling} (h : Registered w) (hd : w.destroyed = false)
    (hc : w.calling[k]? = some c) (hin : c.inserted = true) : Registered (w.submit k c) := by
  have hunreg : ∀ n, (w.calling.eraseIdx k).countP (fun c => c.call == n && !c.inserted) =
      w.unregistered n := by
    intro n
    have := Counting.countP_eraseIdx (p := fun c : Calling => c.call == n && !c.inserted) hc
    simpa [World.unregistered, hin] using this
  have hbase : Registered { w with calling := w.calling.eraseIdx k } := by
    refine registered_of_live hd ⟨h.owned.rr, h.owned.ids,
      fun x hx => h.owned.calling x (List.mem_of_mem_eraseIdx hx), h.owned.table,
      h.owned.runs⟩ fun n msgid hn => ?_
    have hone := h.once n msgid hn
    rw [← hunreg n] at hone
    exact hone
  unfold World.submit
  simp only []
  split_ifs
  · exact hbase
  · split
    · exact hbase.congr rfl rfl rfl rfl rfl rfl
    · exact hbase.congr rfl rfl rfl rfl rfl rfl

/-- The partitions a loop has cleared. -/
theorem foldl_clear (h : Registered w) (hd : w.destroyed = false) : ∀ l : List ℕ,
    Registered (l.foldl World.clear w) ∧ (l.foldl World.clear w).destroyed = false ∧
      (l.foldl World.clear w).calling = w.calling ∧
      ∀ i, (l.foldl World.clear w).session.callbacks i =
        if i ∈ l then [] else w.session.callbacks i := by
  intro l
  induction l generalizing w with
  | nil => exact ⟨h, hd, rfl, fun i => by simp⟩
  | cons j l ih =>
    obtain ⟨hreg, hdes, hcalling, hcbs⟩ := ih (w := w.clear j) (h.clear hd) hd
    refine ⟨hreg, hdes, hcalling, fun i => ?_⟩
    rw [List.foldl_cons, hcbs]
    have hj : (w.clear j).session.callbacks i = if i = j then [] else w.session.callbacks i := by
      unfold World.clear World.setCallbacks World.run
      simp only [Function.update_apply]
    rw [hj]
    by_cases hij : i = j <;> by_cases hil : i ∈ l <;> simp [hij, hil]

theorem Registered.destroy (h : Registered w) (hd : w.destroyed = false)
    (hcalling : w.calling = []) : Registered w.destroy := by
  have hlose : Registered w.lose := h.congr rfl rfl rfl rfl rfl rfl
  obtain ⟨hreg, -, hc, hcbs⟩ := foldl_clear hlose hd (List.range partitionNum)
  refine ⟨⟨hreg.owned.rr, hreg.owned.ids, hreg.owned.calling, hreg.owned.table, hreg.owned.runs⟩,
    hreg.once, fun _ => ⟨hc.trans hcalling, fun i hi => ?_⟩⟩
  exact (hcbs i).trans (if_pos (List.mem_range.2 hi))

theorem step_registered [DecidableEq τ] {a : Act τ} (h : Registered w)
    (hlen : w.msgids.length < 2 ^ 32) (hs : w.step a = some w') : Registered w' := by
  obtain ⟨hd, hs⟩ := stepped_of_step hs
  cases hs with
  | call n => exact h.call hd
  | insert hc hin => exact h.insert hlen hd hc hin
  | submit hc hin => exact h.submit hd hc hin
  | processResponse msgid => exact h.processResponse hd
  | stepTimeout => exact h.congr rfl rfl rfl rfl rfl rfl
  | forceLost => exact h.congr rfl rfl rfl rfl rfl rfl
  | sweep k x =>
    have hvisit : Registered (w.visit x.i x.kind) := by
      cases x.kind with
      | forEachClear => exact h.clear hd
      | eraseIf => exact h.stepTimeout hd
    exact hvisit.congr rfl rfl rfl rfl rfl rfl
  | bind t => exact h.congr rfl rfl rfl rfl rfl rfl
  | swap ht => exact h.congr rfl rfl rfl rfl rfl rfl
  | @send k t pendings ht =>
    cases pendings with
    | nil => exact h.congr rfl rfl rfl rfl rfl rfl
    | cons b pendings => exact h.congr rfl rfl rfl rfl rfl rfl
  | unbind t => exact h.congr rfl rfl rfl rfl rfl rfl
  | destroy hcalling _ => exact h.destroy hd hcalling

/-- The calls there have been stay. -/
theorem step_msgids [DecidableEq τ] {a : Act τ} (hs : w.step a = some w') :
    w.msgids.length ≤ w'.msgids.length := by
  obtain ⟨-, hs⟩ := stepped_of_step hs
  cases hs with
  | call n => simp [World.call]
  | @submit k c hc hin =>
    unfold World.submit
    simp only []
    split_ifs
    · exact le_rfl
    · split <;> exact le_rfl
  | processResponse msgid =>
    unfold World.processResponse
    split <;> exact le_rfl
  | sweep k x =>
    unfold World.sweep
    cases x.kind <;> exact le_rfl
  | @send k t pendings ht => cases pendings <;> exact le_rfl
  | destroy _ _ => exact le_rfl
  | _ => exact le_rfl

theorem init_registered : Registered (.init : World τ) :=
  ⟨⟨rfl, by simp [World.init], by simp [World.init], by simp [World.init], by simp [World.init]⟩,
    by simp [World.init], fun h => absurd h Bool.false_ne_true⟩

theorem registered_of_run [DecidableEq τ] {as : List (Act τ)}
    (hrun : Run World.step Free .init as w) (hlen : w.msgids.length < 2 ^ 32) : Registered w :=
  hrun.inv (I := fun w => w.msgids.length < 2 ^ 32 → Registered w)
    (fun _ _ _ h _ hs hlen =>
      have hlen := Nat.lt_of_le_of_lt (step_msgids hs) hlen
      step_registered (h hlen) hlen hs)
    (fun _ => init_registered) hlen

theorem Owned.nodup (h : Owned w) (hlen : w.msgids.length < 2 ^ 32) : w.msgids.Nodup := by
  rw [List.nodup_iff_getElem?_ne_getElem?]
  intro i j hij hj he
  have hi : w.msgids[i]? = some (w.msgids[i]) := List.getElem?_eq_getElem (hij.trans hj)
  have := h.inj hlen hi (he ▸ hi)
  omega

/-- Whatever responses, timeouts and losses come in between, a call's callback is called at most
once, for no other message id than the call's own, and once when the session has been destroyed. -/
theorem callbacks_called_once [DecidableEq τ] {as : List (Act τ)}
    (hrun : Run World.step Free .init as w) (hlen : w.msgids.length < 2 ^ 32) :
    w.msgids.Nodup ∧ (∀ n, w.ran n ≤ 1) ∧ (∀ r ∈ w.runs, w.msgids[r.call]? = some r.msgid) ∧
      (w.destroyed = true → ∀ n < w.msgids.length, w.ran n = 1) := by
  have h := registered_of_run hrun hlen
  refine ⟨h.owned.nodup hlen, fun n => ?_, h.owned.runs, fun hd n hn => ?_⟩
  · rcases hn : w.msgids[n]? with _ | msgid
    · obtain ⟨-, -, hzero⟩ := h.owned.nothing hn 0
      omega
    · have hone := h.once n msgid hn
      omega
  · obtain ⟨hcalling, htable⟩ := h.ended hd
    have hone := h.once n _ (List.getElem?_eq_getElem hn)
    have hpart : partition w.msgids[n] < partitionNum := Nat.mod_lt _ (by decide)
    rw [htable _ hpart] at hone
    simpa [World.unregistered, hcalling, Callbacks.ofCall] using hone

/-- One call is answered, with the response repeated; another times out while a third is being
registered, which is left to the destructor. -/
def threeCalls : List (Act ℕ) :=
  [.call 5, .call 0, .insert 0, .insert 1, .processResponse 1, .processResponse 1, .stepTimeout,
    .sweep 0, .call 5, .sweep 0, .insert 2, .sweep 0, .sweep 0, .submit 0, .submit 0, .submit 0,
    .destroy]

theorem callbacks_called_threeCalls : ∃ w : World ℕ, Run World.step Free .init threeCalls w ∧
    w.runs = [⟨0, 1, .response⟩, ⟨1, 2, .timeoutError⟩, ⟨2, 3, .lostError⟩] ∧
    ∀ n < 3, w.ran n = 1 := by
  obtain ⟨w, hrun, hruns, hids, hd⟩ : ∃ w : World ℕ, Run World.step Free .init threeCalls w ∧
      w.runs = [⟨0, 1, .response⟩, ⟨1, 2, .timeoutError⟩, ⟨2, 3, .lostError⟩] ∧
      w.msgids.length = 3 ∧ w.destroyed = true :=
    ⟨_, exec_run (rfl : exec World.step .init threeCalls = some _), rfl, rfl, rfl⟩
  obtain ⟨-, -, -, hone⟩ := callbacks_called_once hrun (by rw [hids]; decide)
  exact ⟨w, hrun, hruns, fun n hn => hone hd n (by rw [hids]; exact hn)⟩

end Kumofs.Rpc
