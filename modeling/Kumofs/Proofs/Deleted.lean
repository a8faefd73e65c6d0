import Kumofs.Proofs.Response

/-!
# What a `Delete` answers

Where the coordinator had the key it answers true. Where it had not, it asks the nodes of `rhs`, but
of what they say only the last reply is looked at: the callback has the flag by value, so that a
node that did delete the key is forgotten when another answers after it.
-/

namespace Kumofs

open Server

namespace Exchange

/-- The callback of a call. -/
def Act.isReply : Act → Bool
  | .reply .. => true
  | _ => false

/-- A replica says that it has deleted the key. -/
def Act.yes : Act → Bool
  | .reply _ (.ok true) _ => true
  | _ => false

def lastReply (acts : List Act) : Option Act := (acts.filter Act.isReply).getLast?

/-- A node of `rhs` has answered true. -/
def RhsYes (h : Handler) (acts : List Act) : Prop :=
  ∃ i c active, .reply i (.ok true) active ∈ acts ∧ h.calls[i]? = some c ∧ c.byRhs = true

/-- The last reply is such an answer. -/
def LastRhsYes (h : Handler) (acts : List Act) : Prop :=
  ∃ i c active, lastReply acts = some (.reply i (.ok true) active) ∧ h.calls[i]? = some c ∧
    c.byRhs = true

/-- What `remove` returns at the coordinator. The handler takes its clocktime the second time it
goes on, and removes the key the third time. -/
def localRemove (key : DBKey) : List Act → Bool
  | .serve _ :: .serve s₂ :: .serve s₃ :: _ =>
    (s₃.storage.remove key.raw s₂.clock.clockIncrClocktime.1).2
  | _ => false

/-! ## The log of a `Delete` -/

/-- How far the handler has come by these acts. -/
def Came (key : DBKey) (h : Handler) (acts : List Act) : Prop :=
  match h.pc with
  | .calc => acts = []
  | .stamp => ∃ s₁, acts = [.serve s₁]
  | .apply => ∃ s₁ s₂, acts = [.serve s₁, .serve s₂] ∧ h.ct = s₂.clock.clockIncrClocktime.1
  | .send | .done => 3 ≤ acts.length ∧ h.deleted = localRemove key acts
  | .refused => True

/-- What the handler of a `Delete` has answered after these acts, when no call to a node of `whs` is
lost. -/
structure Tells (key : DBKey) (h : Handler) (acts : List Act) : Prop where
  op : h.op = .delete false
  came : Came key h acts
  known : ∀ i res active, .reply i res active ∈ acts → i < h.calls.length
  rhsOnly : h.deleted = false → ∀ c ∈ h.calls, c.byRhs = true
  early : h.pc = .calc ∨ h.pc = .stamp ∨ h.pc = .apply → h.responses = [] ∧ h.deleted = false
  alone : h.pc = .send ∨ h.pc = .done → h.calls = [] → h.responses = [.bool h.deleted]
  waits : h.calls.countP (!Handler.settled ·) ≠ 0 → h.responses = []
  last : h.calls ≠ [] → h.calls.countP (!Handler.settled ·) = 0 →
    h.responses = [.bool (h.deleted || (lastReply acts).any Act.yes)]

variable {key : DBKey} {h h' : Handler} {acts : List Act} {st st' : State} {o : Option ℕ}

theorem lastReply_append {a : Act} (ha : a.isReply = false) :
    lastReply (acts ++ [a]) = lastReply acts := by
  unfold lastReply
  rw [List.filter_append, List.filter_cons_of_neg (by simp [ha]), List.filter_nil, List.append_nil]

theorem lastReply_concat {a : Act} (ha : a.isReply = true) : lastReply (acts ++ [a]) = some a := by
  unfold lastReply
  rw [List.filter_append, List.filter_cons_of_pos ha, List.filter_nil, List.getLast?_concat]

theorem lastReply_mem {a : Act} (ha : lastReply acts = some a) :
    a ∈ acts ∧ ∃ i res active, a = .reply i res active := by
  obtain ⟨hm, hr⟩ := List.mem_filter.1 (List.mem_of_getLast? ha)
  refine ⟨hm, ?_⟩
  cases a with
  | reply i res active => exact ⟨i, res, active, rfl⟩
  | serve | manage => simp [Act.isReply] at hr

theorem yes_eq {i : ℕ} {res : Except String Bool} {active : Bool}
    (hy : (Act.reply i res active).yes = true) : res = .ok true := by
  rcases res with e | b
  · cases hy
  · cases b
    · cases hy
    · rfl

/-- The key has been removed, or not, when three acts are over. -/
theorem localRemove_append (a : Act) (hl : 3 ≤ acts.length) :
    localRemove key (acts ++ [a]) = localRemove key acts := by
  rcases acts with _ | ⟨a₁, _ | ⟨a₂, _ | ⟨a₃, as⟩⟩⟩
  · simp at hl
  · simp at hl
  · simp at hl
  · cases a₁ <;> cases a₂ <;> cases a₃ <;> rfl

theorem Came.append (hcame : Came key h acts) (hp : h.pc = .send ∨ h.pc = .done) (a : Act) :
    3 ≤ (acts ++ [a]).length ∧ h.deleted = localRemove key (acts ++ [a]) := by
  have hcame : 3 ≤ acts.length ∧ h.deleted = localRemove key acts := by
    rcases hp with hp | hp <;> simpa [Came, hp] using hcame
  rw [localRemove_append a hcame.1, List.length_append]
  exact ⟨by omega, hcame.2⟩

/-! ## The handler goes on -/

theorem known_serve {n : ℕ} (hk : ∀ i res active, .reply i res active ∈ acts → i < n) :
    ∀ i res active, .reply i res active ∈ acts ++ [.serve st] → i < n := by
  intro i res active hm
  rw [List.mem_append, List.mem_singleton] at hm
  exact hk i res active (hm.resolve_right (by simp))

/-- A handler without calls. -/
theorem tells_idle (hop : h.op = .delete false) (hc : h.calls = []) (hcame : Came key h acts)
    (hk : ∀ i res active, .reply i res active ∈ acts → i < 0)
    (he : h.pc = .calc ∨ h.pc = .stamp ∨ h.pc = .apply → h.responses = [] ∧ h.deleted = false)
    (ha : h.pc = .send ∨ h.pc = .done → h.responses = [.bool h.deleted]) : Tells key h acts :=
  ⟨hop, hcame, by rwa [hc], by simp [hc], he, fun hp _ => ha hp, by simp [hc], by simp [hc]⟩

theorem tells_init (self : Address) : Tells key (.init self (.delete false)) [] :=
  tells_idle rfl rfl rfl (by simp) (fun _ => ⟨rfl, rfl⟩) (by simp [Handler.init])

/-- A handler that comes to its calls. -/
theorem tells_prepare {g : Handler} (hop : g.op = .delete false) (hr : g.responses = [])
    (hcame : 3 ≤ acts.length ∧ g.deleted = localRemove key acts)
    (hk : ∀ i res active, .reply i res active ∈ acts → i < 0)
    (hw : g.deleted = false → g.reps.wrepto = [])
    (halone : g.prepare.calls = [] → g.deleted = true) :
    Tells key (g.prepare.respondIfAlone (.bool true)) acts := by
  have ha : g.op.async = false := by rw [hop]; rfl
  have hdel : ∀ r, (g.prepare.respondIfAlone r).deleted = g.deleted := by
    intro r
    unfold Handler.respondIfAlone
    split_ifs <;> rfl
  have hresp : (g.prepare.respondIfAlone (.bool true)).responses =
      if g.prepare.calls = [] then [.bool true] else [] := by
    have hop' : g.prepare.op.async = false := ha
    unfold Handler.respondIfAlone
    simp only [hop', Bool.false_eq_true, or_false]
    split_ifs
    · exact congrArg (_ :: ·) hr
    · exact hr
  refine ⟨by simpa [Handler.prepare] using hop, ?_, ?_, ?_, ?_, ?_, ?_, ?_⟩
  · rw [Came, Handler.respondIfAlone_pc, hdel]
    exact hcame
  · exact fun i res active hm => absurd (hk i res active hm) (Nat.not_lt_zero i)
  · rw [hdel, Handler.respondIfAlone_calls]
    intro hd c hc
    simp only [Handler.prepare, hw hd, List.map_nil, List.append_nil, List.mem_map] at hc
    obtain ⟨a, -, rfl⟩ := hc
    rfl
  · simp [Handler.prepare]
  · rw [Handler.respondIfAlone_calls, hdel, hresp]
    intro _ hc
    rw [if_pos hc, halone hc]
  · rw [Handler.respondIfAlone_calls, hresp]
    intro hne
    rw [if_neg]
    rintro hc
    simp [hc] at hne
  · rw [Handler.respondIfAlone_calls]
    intro hne h0
    exact absurd h0
      (Handler.countP_not_settled_ne_zero hne fun c hc => (Handler.prepare_settled g c hc).1)

/-- The handler goes on without a change to what it has answered. -/
theorem Tells.serve (ht : Tells key h acts) (hp : h.pc = .send ∨ h.pc = .done ∨ h.pc = .refused) :
    Tells key h (acts ++ [.serve st]) := by
  refine ⟨ht.op, ?_, known_serve ht.known, ht.rhsOnly, ht.early, ht.alone, ht.waits, ?_⟩
  · rcases hp with hp | hp | hp
    · simpa [Came, hp] using ht.came.append (.inl hp) (.serve st)
    · simpa [Came, hp] using ht.came.append (.inr hp) (.serve st)
    · simp [Came, hp]
  · rw [lastReply_append rfl]
    exact ht.last

/-- A call that changes before it is settled. -/
theorem Tells.setCall (ht : Tells key h acts) {i : ℕ} {c c' : Call} (hc : h.calls[i]? = some c)
    (hb : c'.byRhs = c.byRhs) (hs : Handler.settled c' = Handler.settled c) {r₁ r₂ : UInt16} :
    Tells key { h with calls := h.calls.set i c', rretry := r₁, wretry := r₂ } acts := by
  have hmem : c ∈ h.calls := List.mem_of_getElem? hc
  have hn : (h.calls.set i c').countP (!Handler.settled ·) =
      h.calls.countP (!Handler.settled ·) := by
    have := Counting.countP_set (p := (!Handler.settled ·)) (y := c') hc
    rw [hs] at this
    omega
  refine ⟨ht.op, ht.came, by simpa using ht.known, fun hd x hx => ?_, ht.early, ?_, ?_, ?_⟩
  · rcases List.mem_or_eq_of_mem_set hx with hx | rfl
    · exact ht.rhsOnly hd x hx
    · rw [hb]
      exact ht.rhsOnly hd c hmem
  · intro _ hnil
    simp [List.ne_nil_of_mem hmem] at hnil
  · rw [hn]
    exact ht.waits
  · rw [hn]
    exact fun _ => ht.last (List.ne_nil_of_mem hmem)

theorem Tells.moves (ht : Tells key h acts) (w : h.Wf) (m : Handler.Moves key st h st' h' o) :
    Tells key h' (acts ++ [.serve st]) := by
  have hcalls : h.pc = .calc ∨ h.pc = .stamp ∨ h.pc = .apply → h.calls = [] ∧
      ∀ i res active, .reply i res active ∈ acts ++ [.serve st] → i < 0 := by
    intro hp
    have hc := (w.early (by tauto)).1
    have hk := ht.known
    rw [hc] at hk
    exact ⟨hc, known_serve hk⟩
  have hcame : h.pc = .apply → 3 ≤ (acts ++ [Act.serve st]).length ∧
      localRemove key (acts ++ [.serve st]) = (st.storage.remove key.raw h.ct).2 := by
    intro hp
    obtain ⟨s₁, s₂, rfl, hct⟩ : ∃ s₁ s₂, acts = [.serve s₁, .serve s₂] ∧
        h.ct = s₂.clock.clockIncrClocktime.1 := by simpa [Came, hp] using ht.came
    rw [hct]
    exact ⟨by simp, rfl⟩
  cases m with
  | refused hp =>
    obtain ⟨hc, hk⟩ := hcalls (.inl hp)
    exact tells_idle ht.op hc trivial hk (by simp) (by simp)
  | computed hp =>
    obtain ⟨hc, hk⟩ := hcalls (.inl hp)
    have hacts : acts = [] := by simpa [Came, hp] using ht.came
    exact tells_idle ht.op hc ⟨st, by simp [hacts]⟩ hk (fun _ => ht.early (.inl hp)) (by simp)
  | stamped hp =>
    obtain ⟨hc, hk⟩ := hcalls (.inr (.inl hp))
    obtain ⟨s₁, hacts⟩ : ∃ s₁, acts = [.serve s₁] := by simpa [Came, hp] using ht.came
    exact tells_idle ht.op hc ⟨s₁, st, by simp [hacts], rfl⟩ hk
      (fun _ => ht.early (.inr (.inl hp))) (by simp)
  | deleteDone hp _ hr =>
    obtain ⟨-, hk⟩ := hcalls (.inr (.inr hp))
    refine tells_prepare ht.op (ht.early (.inr (.inr hp))).1 ⟨(hcame hp).1, ?_⟩ hk (by simp)
      fun _ => rfl
    rw [(hcame hp).2, hr]
  | deleteNothing hp _ hr =>
    obtain ⟨hc, hk⟩ := hcalls (.inr (.inr hp))
    obtain ⟨hnil, hd⟩ := ht.early (.inr (.inr hp))
    refine tells_idle ht.op hc ⟨(hcame hp).1, ?_⟩ hk (by simp) fun _ => ?_
    · rw [(hcame hp).2, hr]
      exact hd
    · show .bool false :: h.responses = [.bool h.deleted]
      rw [hnil, hd]
  | deleteElsewhere hp _ hr hne =>
    obtain ⟨-, hk⟩ := hcalls (.inr (.inr hp))
    obtain ⟨hnil, hd⟩ := ht.early (.inr (.inr hp))
    refine tells_prepare ht.op hnil ⟨(hcame hp).1, ?_⟩ hk (fun _ => rfl) fun hc => ?_
    · rw [(hcame hp).2, hr]
      exact hd
    · simp [Handler.prepare, hne] at hc
  | send hp hi =>
    obtain ⟨c, hc, hu⟩ := Handler.findIdx_unsent hi
    rw [Handler.modify_sent hc]
    exact (ht.serve (.inl hp)).setCall hc (by rfl) (by simp [Handler.settled, hu])
  | deleteSent hp =>
    have ht' : Tells key h (acts ++ [.serve st]) := ht.serve (.inl hp)
    refine ⟨ht.op, ht.came.append (.inl hp) (.serve st), ht'.known, ht.rhsOnly, by simp,
      fun _ => ht.alone (.inl hp), ht.waits, ht'.last⟩
  | ended hp => exact ht.serve (by tauto)
  | stampedSet _ hop | casDone _ hop | casFailed _ hop | written _ _ hop | casSent _ _ hop =>
    rw [ht.op] at hop
    cases hop
  | idle _ hop =>
    obtain ⟨val, async, hop⟩ := hop
    rw [ht.op] at hop
    cases hop

/-! ## Callbacks -/

section Reply

variable {limit : UInt16} {i : ℕ} {c c' : Call} {res : Except String Bool} {active : Bool}

/-- What is left of a callback: the call has changed, and there is a response if it was the last. -/
theorem Tells.reply (ht : Tells key h acts) (w : h.Wf) (hc : h.calls[i]? = some c)
    (hb : c'.byRhs = c.byRhs) {r₁ r₂ : UInt16} {n : UInt32} {rs : List Response}
    (hr : rs = if (h.calls.set i c').countP (!Handler.settled ·) = 0 then
      [.bool (h.deleted || (Act.reply i res active).yes)] else []) :
    Tells key { h with
      calls := h.calls.set i c', rretry := r₁, wretry := r₂, copyRequired := n, responses := rs }
      (acts ++ [.reply i res active]) := by
  have hp := w.pc_of_call (List.mem_of_getElem? hc)
  have hcame := ht.came.append hp (.reply i res active)
  have hmem : c ∈ h.calls := List.mem_of_getElem? hc
  refine ⟨ht.op, ?_, fun j res' active' hm => ?_, fun hd x hx => ?_, ?_, ?_, ?_, ?_⟩
  · rcases hp with hp | hp <;> simpa [Came, hp] using hcame
  · rw [List.length_set]
    rw [List.mem_append, List.mem_singleton] at hm
    rcases hm with hm | hm
    · exact ht.known j res' active' hm
    · cases hm
      exact (List.getElem?_eq_some_iff.1 hc).1
  · rcases List.mem_or_eq_of_mem_set hx with hx | rfl
    · exact ht.rhsOnly hd x hx
    · rw [hb]
      exact ht.rhsOnly hd c hmem
  · rcases hp with hp | hp <;> simp [hp]
  · intro _ hnil
    simp [List.ne_nil_of_mem hmem] at hnil
  · intro hne
    rw [hr, if_neg hne]
  · intro _ h0
    rw [hr, if_pos h0, lastReply_concat rfl]
    rfl

theorem lastResponse_delete (ht : Tells key h acts) (hc : h.calls[i]? = some c) {g : Handler}
    (hop : g.op = h.op) (hd : g.deleted = h.deleted) :
    g.lastResponse c res = .bool (h.deleted || (Act.reply i res active).yes) := by
  unfold Handler.lastResponse
  rw [hop, ht.op, hd]
  cases hdel : h.deleted with
  | true => rfl
  | false =>
    rw [ht.rhsOnly hdel c (List.mem_of_getElem? hc)]
    rcases res with e | b
    · rfl
    · cases b <;> rfl

/-- The call is settled, and the callback counts down. -/
theorem Tells.countDown (ht : Tells key h acts) (w : h.Wf) (hc : h.calls[i]? = some c)
    (hw : c.status = .waiting) (hb : c'.byRhs = c.byRhs) (hs : Handler.settled c' = true)
    {r₁ r₂ : UInt16} {r : Response}
    (hr : r = .bool (h.deleted || (Act.reply i res active).yes)) :
    Tells key
      ({ h with calls := h.calls.set i c', rretry := r₁, wretry := r₂ }.countDown r)
      (acts ++ [.reply i res active]) := by
  rw [Handler.countDown_eq_ite]
  refine ht.reply w hc hb ?_
  have hz := w.countDown_sync hc hw hs (by rw [ht.op]; rfl)
  have hnil : h.responses = [] := ht.waits
    (Handler.countP_ne_zero_of_mem (List.mem_of_getElem? hc) (Handler.settled_waiting hw))
  rw [hr, hnil]
  exact if_congr hz rfl rfl

theorem Tells.onReply (ht : Tells key h acts) (w : h.Wf) (hc : h.calls[i]? = some c)
    (hw : c.status = .waiting) (hg : h.givesUp limit c res active = false) :
    Tells key (h.onReply limit i c res active).1 (acts ++ [.reply i res active]) := by
  unfold Handler.onReply
  cases res with
  | ok b =>
    exact ht.countDown w hc hw (by rfl) (by rfl) (lastResponse_delete ht hc rfl rfl)
  | error e =>
    obtain ⟨r₁, r₂, b, hri, hlast⟩ := Handler.retry_eq limit h c.byRhs active
    simp only [hri]
    cases b with
    | true =>
      have hcount : (h.calls.set i { c with attempt := c.attempt + 1 }).countP
          (!Handler.settled ·) ≠ 0 := by
        refine Handler.countP_ne_zero_of_mem (List.mem_set (List.getElem?_eq_some_iff.1 hc).1 _) ?_
        exact Handler.settled_waiting hw
      refine ht.reply w hc (by rfl) ?_
      rw [if_neg hcount]
      exact ht.waits
        (Handler.countP_ne_zero_of_mem (List.mem_of_getElem? hc) (Handler.settled_waiting hw))
    | false =>
      simp only [Bool.false_eq_true, if_false]
      split_ifs with hb
      · exact ht.countDown w hc hw (by rfl) (by simp [Handler.settled, hb])
          (lastResponse_delete ht hc rfl rfl)
      · have hb := Bool.eq_false_of_not_eq_true hb
        have hno := hlast hb rfl
        simp [Handler.givesUp, hb, Except.isOk, Except.toBool] at hg
        exact absurd hg hno

end Reply

/-! ## Runs -/

/-- The request is a `Delete`, and its handler has answered as above. -/
def LoggedDelete (key : DBKey) : Exchange × List Act → Prop
  | (.arrived r, acts) => r = .write (.delete false) ∧ acts = []
  | (.writing h, acts) => h.Wf ∧ (h.calls.countP Handler.lost = 0 → Tells key h acts)
  | (.ended _, _) => True

variable {hash : Bytes → UInt64} {self : Address} {cfg : StoreNet.Config}

theorem loggedDelete_step {e e' : Exchange} {acts : List Act} {a : Act}
    (hI : LoggedDelete cfg.key (e, acts)) (hs : step hash self cfg e a = some e') :
    LoggedDelete cfg.key (e', acts ++ [a]) := by
  unfold step at hs
  split at hs
  next => cases hs; trivial
  next => cases hs; trivial
  next op st =>
    cases hs
    obtain ⟨hop, rfl⟩ := hI
    cases hop
    have m := Handler.step_moves cfg.key st (.init self (.delete false))
    exact ⟨m.wf (Handler.init_wf self _),
      fun _ => (tells_init self).moves (Handler.init_wf self _) m⟩
  next => cases hs; trivial
  next => cases hs; trivial
  next => cases hs; trivial
  next h st =>
    cases hs
    obtain ⟨w, ht⟩ := hI
    have m := Handler.step_moves cfg.key st h
    refine ⟨m.wf w, fun h0 => (ht ?_).moves w m⟩
    rw [← m.countP_lost w]
    exact h0
  next h i res active =>
    obtain ⟨h', hcb, rfl⟩ := Option.map_eq_some_iff.1 hs
    obtain ⟨c, hc, hw, rfl⟩ := callback_eq hcb
    obtain ⟨w, ht⟩ := hI
    have m := Handler.onReply_answers (cfg.retryNum h.op) h i c res active
    refine ⟨m.wf w hc hw, fun h0 => ?_⟩
    rw [Handler.countP_lost_onReply hc hw] at h0
    obtain ⟨h0, hg⟩ := Nat.add_eq_zero_iff.1 h0
    exact (ht h0).onReply w hc hw (Bool.toNat_eq_zero.1 hg)
  next => cases hs

/-- What a `Delete` answers when all calls have completed. -/
theorem delete_answers {h : Handler} {acts : List Act}
    (hrun : Machine.Run (step hash self cfg) Machine.Free (.arrived (.write (.delete false))) acts
      (.writing h)) (hc : (Exchange.writing h).Complete) (hp : h.pc = .done)
    (hl : h.calls.countP Handler.lost = 0) :
    Tells cfg.key h acts ∧ h.deleted = localRemove cfg.key acts ∧
      h.responses = [.bool (h.deleted || (lastReply acts).any Act.yes)] := by
  have hI : LoggedDelete cfg.key (.writing h, acts) := by
    refine (hrun.logged []).inv (fun s a t hI _ hs => ?_) ⟨rfl, rfl⟩
    obtain ⟨e', hst, rfl⟩ := Option.map_eq_some_iff.1 hs
    exact loggedDelete_step hI hst
  have ht := hI.2 hl
  have hcame : 3 ≤ acts.length ∧ h.deleted = localRemove cfg.key acts := by
    simpa [Came, hp] using ht.came
  refine ⟨ht, hcame.2, ?_⟩
  by_cases hnil : h.calls = []
  · have hno : lastReply acts = none := by
      cases hlast : lastReply acts with
      | none => rfl
      | some a =>
        obtain ⟨ha, i, res, active, rfl⟩ := lastReply_mem hlast
        have := ht.known i res active ha
        simp [hnil] at this
    rw [ht.alone (.inr hp) hnil, hno, Option.any_none, Bool.or_false]
  · refine ht.last hnil (List.countP_eq_zero.2 fun c hm => ?_)
    have hlost := List.countP_eq_zero.1 hl c hm
    rcases hc.2 c hm with hs | hs
    · simp [Handler.settled, hs]
    · simpa [Handler.settled, Handler.lost, hs] using hlost

/-- A `Delete` answers true just where the coordinator or a node of `rhs` has deleted the key, if and
only if the coordinator has, or no node of `rhs` has, or the last reply is from one that has. -/
theorem delete_tells_iff {h : Handler} {acts : List Act}
    (hrun : Machine.Run (step hash self cfg) Machine.Free (.arrived (.write (.delete false))) acts
      (.writing h)) (hc : (Exchange.writing h).Complete) (hp : h.pc = .done)
    (hl : h.calls.countP Handler.lost = 0) :
    ∃ b, h.responses = [.bool b] ∧
      ((b = true ↔ localRemove cfg.key acts = true ∨ RhsYes h acts) ↔
        (localRemove cfg.key acts = true ∨ ¬ RhsYes h acts ∨ LastRhsYes h acts)) := by
  obtain ⟨ht, hd, hr⟩ := delete_answers hrun hc hp hl
  refine ⟨_, hr, ?_⟩
  rw [← hd]
  have hmem : LastRhsYes h acts → RhsYes h acts := by
    rintro ⟨i, c, active, hlast, hc, hb⟩
    exact ⟨i, c, active, (lastReply_mem hlast).1, hc, hb⟩
  cases hdel : h.deleted with
  | true => simp
  | false =>
    have hlast : (lastReply acts).any Act.yes = true ↔ LastRhsYes h acts := by
      constructor
      · intro hyes
        obtain ⟨a, ha, hy⟩ := (Option.any_eq_true _ _).1 hyes
        obtain ⟨hm, i, res, active, rfl⟩ := lastReply_mem ha
        have hi := ht.known i res active hm
        obtain rfl := yes_eq hy
        exact ⟨i, h.calls[i], active, ha, List.getElem?_eq_getElem hi,
          ht.rhsOnly hdel _ (List.getElem_mem hi)⟩
      · rintro ⟨i, c, active, ha, -⟩
        rw [ha]
        rfl
    rw [Bool.false_or, hlast]
    simp only [Bool.false_eq_true, false_or]
    tauto

/-! Server 1 deletes a key of servers 2 and 3 that has been set again when it comes to its own
database. Of the two, one still has the key. -/

section Sample

open Sample StoreNet

def replacingServer : State := emptyServer (seedOf [1] (.mk' 2 1000)) (seedOf [2, 3] (.mk' 1 1000))

/-- The value `w`, written at clock 2 of second 1000. -/
def laterVal : Bytes := [0, 0, 3, 232, 0, 0, 0, 2, 0, 0, 119]

def setAgain : State := { replacingServer with storage := replacingServer.storage.set entryKey laterVal }

/-- The handler makes its calls, and these answers come in this order. -/
def answersIn (order : List (ℕ × Bool)) : List Act :=
  [.serve replacingServer, .serve replacingServer, .serve setAgain, .serve setAgain, .serve setAgain,
    .serve setAgain] ++ order.map fun p => .reply p.1 (.ok p.2) true

def answeredDelete (b : Bool) : Handler :=
  ⟨svr 1, .delete false, .done, ⟨[svr 2, svr 3], [], [svr 1]⟩, .mk' 1 1000, false, 0,
    [⟨svr 2, true, .answered, 1⟩, ⟨svr 3, true, .answered, 1⟩], 0, 0, [.bool b], false⟩

def handler? : Exchange → Option Handler
  | .writing h => some h
  | _ => none

theorem answersIn_run {order : List (ℕ × Bool)} {h : Handler}
    (hx : (Machine.exec (step zeroHash (svr 1) sampleCfg) (.arrived (.write (.delete false)))
      (answersIn order)).bind handler? = some h) :
    Machine.Run (step zeroHash (svr 1) sampleCfg) Machine.Free (.arrived (.write (.delete false)))
      (answersIn order) (.writing h) := by
  obtain ⟨e, he, hh⟩ := Option.bind_eq_some_iff.1 hx
  cases e with
  | writing g =>
    cases hh
    exact Machine.exec_run he
  | arrived | ended => cases hh

theorem yesLast_run : Machine.Run (step zeroHash (svr 1) sampleCfg) Machine.Free
    (.arrived (.write (.delete false))) (answersIn [(1, false), (0, true)])
    (.writing (answeredDelete true)) :=
  answersIn_run (by decide +kernel)

theorem yesFirst_run : Machine.Run (step zeroHash (svr 1) sampleCfg) Machine.Free
    (.arrived (.write (.delete false))) (answersIn [(0, true), (1, false)])
    (.writing (answeredDelete false)) :=
  answersIn_run (by decide +kernel)

theorem delete_tells_yesLast :
    ∃ b, (answeredDelete true).responses = [.bool b] ∧
      (b = true ↔ localRemove sampleCfg.key (answersIn [(1, false), (0, true)]) = true ∨
        RhsYes (answeredDelete true) (answersIn [(1, false), (0, true)])) := by
  obtain ⟨b, hr, hiff⟩ :=
    delete_tells_iff yesLast_run ⟨.inl rfl, by decide⟩ rfl (by decide)
  exact ⟨b, hr, hiff.2 (.inr (.inr ⟨0, _, true, rfl, rfl, rfl⟩))⟩

/-- The same answers in both orders: true is said if the yes comes last, and false if it comes
first, though server 2 has deleted the key. -/
theorem delete_forgets_yes :
    (Machine.Run (step zeroHash (svr 1) sampleCfg) Machine.Free
      (.arrived (.write (.delete false))) (answersIn [(1, false), (0, true)])
      (.writing (answeredDelete true)) ∧ (answeredDelete true).responses = [.bool true]) ∧
    Machine.Run (step zeroHash (svr 1) sampleCfg) Machine.Free
      (.arrived (.write (.delete false))) (answersIn [(0, true), (1, false)])
      (.writing (answeredDelete false)) ∧
    (Exchange.writing (answeredDelete false)).Complete ∧
    (answeredDelete false).calls.countP Handler.lost = 0 ∧
    ¬ ∃ b, (answeredDelete false).responses = [.bool b] ∧
      (b = true ↔ localRemove sampleCfg.key (answersIn [(0, true), (1, false)]) = true ∨
        RhsYes (answeredDelete false) (answersIn [(0, true), (1, false)])) := by
  refine ⟨⟨yesLast_run, rfl⟩, yesFirst_run, ⟨.inl rfl, by decide⟩, by decide, ?_⟩
  rintro ⟨b, hr, hiff⟩
  have hyes : RhsYes (answeredDelete false) (answersIn [(0, true), (1, false)]) :=
    ⟨0, _, true, by simp [answersIn], rfl, rfl⟩
  rw [hiff.2 (.inr hyes)] at hr
  cases hr

end Sample

end Exchange

end Kumofs
