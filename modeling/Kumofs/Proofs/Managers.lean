import Kumofs.Proofs.Manager

/-!
# What a step of two managers is

Every action runs one handler at one manager. A message that is delivered leaves its inbox, and
what the handler sends the partner goes to the end of the other one, with the response of a
`ReplaceElection` if there is one. Nothing else changes.
-/

namespace Kumofs.Manager

variable {hash : Bytes → UInt64} {m : Manager} {r : Manager × List Out}

/-! ## Handlers that call nobody -/

/-- A handler that changes neither the addresses nor the calls, and sends the partner nothing but
hash spaces. -/
structure Quiet (m : Manager) (r : Manager × List Out) : Prop where
  addr : r.1.addr = m.addr
  partner : r.1.partner = m.partner
  calls : r.1.calls = m.calls
  nextCall : r.1.nextCall = m.nextCall
  syncs : ∀ msg, .partner msg ∈ r.2 → ∃ wseed rseed c, msg = .hashSpaceSync wseed rseed c

theorem Quiet.andThen {f : Manager → Manager × List Out} (h : Quiet m r) (h' : Quiet r.1 (f r.1)) :
    Quiet m (andThen r f) := by
  refine ⟨h'.addr.trans h.addr, h'.partner.trans h.partner, h'.calls.trans h.calls,
    h'.nextCall.trans h.nextCall, fun msg hm => ?_⟩
  rcases List.mem_append.1 hm with hm | hm
  · exact h.syncs msg hm
  · exact h'.syncs msg hm

theorem quiet_nil {m' : Manager} (ha : m'.addr = m.addr) (hp : m'.partner = m.partner)
    (hc : m'.calls = m.calls) (hn : m'.nextCall = m.nextCall) : Quiet m (m', []) :=
  ⟨ha, hp, hc, hn, fun _ h => absurd h List.not_mem_nil⟩

theorem quiet_syncHashSpacePartner : Quiet m m.syncHashSpacePartner := by
  unfold syncHashSpacePartner
  split_ifs
  · refine ⟨rfl, rfl, rfl, rfl, fun msg h => ⟨m.whs.seed, m.rhs.seed, m.clock.clockIncr.1, ?_⟩⟩
    simpa using h
  · exact quiet_nil rfl rfl rfl rfl

theorem quiet_attachNewServers : Quiet m (m.attachNewServers hash) := by
  have h := quiet_syncHashSpacePartner (m :=
    { m.clockIncr with whs := attachAll hash m.nextClocktime m.whs m.newServers, newServers := [] })
  exact ⟨h.addr, h.partner, h.calls, h.nextCall, h.syncs⟩

theorem quiet_detachFaultServers : Quiet m (m.detachFaultServers hash) := by
  have h := quiet_syncHashSpacePartner (m :=
    { m.clockIncr with whs := (m.whs.removeFaultServers hash m.nextClocktime).1 })
  exact ⟨h.addr, h.partner, h.calls, h.nextCall, h.syncs⟩

theorem quiet_attachDetach :
    Quiet m (andThen (m.attachNewServers hash) (detachFaultServers hash)) :=
  quiet_attachNewServers.andThen quiet_detachFaultServers

theorem quiet_startReplace (full : Bool) : Quiet m (m.startReplace full) := by
  refine ⟨rfl, rfl, rfl, rfl, fun msg h => ?_⟩
  simp [startReplace, Manager.andThen, pushHashSpaceClients] at h

theorem quiet_addServer (a : Address) : Quiet m (m.addServer a, []) := by
  unfold addServer
  simp only []
  split_ifs
  all_goals exact quiet_nil rfl rfl rfl rfl

theorem quiet_removeServerLocked (a : Address) (ct : ClockTime) :
    Quiet m (m.removeServerLocked a ct) := by
  have hf : Quiet m (faultServer ct a { m with removing := m.removing.erase (a, ct) }) := by
    unfold faultServer
    simp only []
    split_ifs
    · have h1 := quiet_syncHashSpacePartner (m :=
        { m with
          removing := m.removing.erase (a, ct)
          whs := (m.whs.faultServer ct a).1
          rhs := (m.rhs.faultServer ct a).1 })
      have h2 := h1.andThen (f := syncHashSpaceServers)
        ⟨rfl, rfl, rfl, rfl, fun msg h => by simp [syncHashSpaceServers] at h⟩
      have h3 := h2.andThen (f := pushHashSpaceClients)
        ⟨rfl, rfl, rfl, rfl, fun msg h => by simp [pushHashSpaceClients] at h⟩
      exact ⟨h3.addr, h3.partner, h3.calls, h3.nextCall, h3.syncs⟩
    · exact quiet_nil rfl rfl rfl rfl
  refine hf.andThen ?_
  simp only []
  split_ifs
  · exact quiet_nil rfl rfl rfl rfl
  · exact quiet_nil rfl rfl rfl rfl

theorem quiet_onReplaceElection (hsseed : Seed) (adjustClock : UInt32) :
    Quiet m (m.onReplaceElection hash hsseed adjustClock).1 := by
  have h := (@quiet_attachDetach hash (m.clockUpdate adjustClock)).andThen
    (quiet_startReplace false)
  unfold onReplaceElection
  simp only []
  split_ifs
  · exact quiet_nil rfl rfl rfl rfl
  · exact quiet_nil rfl rfl rfl rfl
  · exact quiet_nil rfl rfl rfl rfl
  · exact ⟨h.addr, h.partner, h.calls, h.nextCall, h.syncs⟩

theorem quiet_controlAttach (replace : Bool) : Quiet m (m.controlAttach hash replace) := by
  unfold controlAttach
  split_ifs
  · exact quiet_attachNewServers.andThen (quiet_startReplace false)
  · exact quiet_attachNewServers

theorem quiet_controlDetach (replace : Bool) : Quiet m (m.controlDetach hash replace) := by
  unfold controlDetach
  split_ifs
  · exact quiet_detachFaultServers.andThen (quiet_startReplace false)
  · exact quiet_detachFaultServers

theorem quiet_setAutoReplace (enable : Bool) : Quiet m (m.setAutoReplace hash enable) := by
  have h := @quiet_attachDetach hash { m with autoReplace := true }
  unfold setAutoReplace
  split_ifs
  · exact quiet_nil rfl rfl rfl rfl
  · exact ⟨h.addr, h.partner, h.calls, h.nextCall, h.syncs⟩
  · exact quiet_nil rfl rfl rfl rfl

theorem quiet_replaceCopyEnd (replaceTime : ClockTime) (adjustClock : UInt32) (a : Address) :
    Quiet m (m.replaceCopyEnd replaceTime adjustClock a) := by
  unfold replaceCopyEnd
  simp only []
  split_ifs
  · refine ⟨rfl, rfl, rfl, rfl, fun msg h => ?_⟩
    simp [finishReplaceCopy] at h
  · exact quiet_nil rfl rfl rfl rfl

theorem quiet_publish : Quiet m m.publish := by
  have h := quiet_syncHashSpacePartner (m := { m with rhs := m.whs, finishing := false })
  have h' := Quiet.andThen (m := { m with rhs := m.whs, finishing := false })
    (r := pushHashSpaceClients { m with rhs := m.whs, finishing := false })
    ⟨rfl, rfl, rfl, rfl, fun msg h => by simp [pushHashSpaceClients] at h⟩ h
  exact ⟨h'.addr, h'.partner, h'.calls, h'.nextCall, h'.syncs⟩

end Kumofs.Manager

namespace Kumofs.Managers

/-- The manager an action runs at. -/
def Act.who : Act → Bool
  | .connect i _ | .lost i _ | .removeLocked i _ _ | .invalidate i | .fire i _
  | .partnerConnected i | .deliver i _ | .electionFailed i _ | .attach i _ | .detach i _
  | .setAutoReplace i _ | .startReplace i _ | .copyEnd i _ _ _ | .publish i | .deleteEnd i _ _ _
  | .clockUpdate i _ | .keepAlive i | .time i _ | .expire i _ => i

section Handlers

variable (hash : Bytes → UInt64) (s : Managers)

/-- What manager `i` makes of a message. -/
def handle (i : Bool) : PartnerMsg → Manager × List Out
  | .hashSpaceSync wseed rseed adjustClock =>
    if (s.mgr !i).addr ≠ (s.mgr i).partner then (s.mgr i, [])
    else ((s.mgr i).hashSpaceSync hash wseed rseed adjustClock, [])
  | .replaceElection _ hsseed adjustClock =>
    if (s.mgr !i).addr ≠ (s.mgr i).partner then (s.mgr i, [])
    else ((s.mgr i).onReplaceElection hash hsseed adjustClock).1
  | .replaceElectionResult call res =>
    if call ∈ (s.mgr i).calls then (s.mgr i).onElectionResult call res else (s.mgr i, [])

/-- The response of manager `i` to a message, if it is a call and gets one. -/
def reply (i : Bool) : PartnerMsg → List PartnerMsg
  | .replaceElection call hsseed adjustClock =>
    if (s.mgr !i).addr ≠ (s.mgr i).partner then [.replaceElectionResult call none]
    else (((s.mgr i).onReplaceElection hash hsseed adjustClock).2.map
      (.replaceElectionResult call)).toList
  | _ => []

/-- The handler an action runs, with what it sends. -/
def handled : Act → Manager × List Out
  | .connect i a => ((s.mgr i).addServer a, [])
  | .lost i a => ((s.mgr i).removeServer a, [])
  | .removeLocked i a ct => (s.mgr i).removeServerLocked a ct
  | .invalidate i => ((s.mgr i).invalidateCopying, [])
  | .fire i cas =>
    { s.mgr i with timers := (s.mgr i).timers.erase cas }.casCheckedReplaceElection hash cas
  | .partnerConnected i => (s.mgr i).syncHashSpacePartner
  | .deliver i k => ((s.inbox i)[k]?).elim (s.mgr i, []) (s.handle hash i)
  | .electionFailed i call => (s.mgr i).onElectionResult call none
  | .attach i replace => (s.mgr i).controlAttach hash replace
  | .detach i replace => (s.mgr i).controlDetach hash replace
  | .setAutoReplace i enable => (s.mgr i).setAutoReplace hash enable
  | .startReplace i full => (s.mgr i).startReplace full
  | .copyEnd i replaceTime adjustClock a => (s.mgr i).replaceCopyEnd replaceTime adjustClock a
  | .publish i => (s.mgr i).publish
  | .deleteEnd i replaceTime adjustClock a =>
    ((s.mgr i).replaceDeleteEnd replaceTime adjustClock a, [])
  | .clockUpdate i c => ((s.mgr i).clockUpdate c, [])
  | .keepAlive i => ((s.mgr i).clockIncr, [])
  | .time i t => ({ s.mgr i with clock := (s.mgr i).clock.clockUpdateTime t }, [])
  | .expire i k =>
    ({ s.mgr i with newServers := (s.mgr i).newServers.modify k ({ · with expired := true }) }, [])

/-- The messages to the manager an action runs at that are left. -/
def left : Act → List PartnerMsg
  | .deliver i k => (s.inbox i).eraseIdx k
  | a => s.inbox a.who

/-- What an action sends the partner. -/
def replied : Act → List PartnerMsg
  | .deliver i k => ((s.inbox i)[k]?).elim [] (s.reply hash i)
  | _ => []

end Handlers

variable {hash : Bytes → UInt64} {s t : Managers} {a : Act} {i : Bool} {r : Manager × List Out}

theorem who_or (a : Act) (j : Bool) : j = a.who ∨ j = !a.who := by
  cases j <;> cases a.who <;> decide

theorem not_who_ne (i : Bool) : i ≠ !i := by cases i <;> decide

/-- What a step makes of the managers, the messages and the logs. -/
structure Stepped (hash : Bytes → UInt64) (s : Managers) (a : Act) (t : Managers) : Prop where
  mgr : t.mgr a.who = (s.handled hash a).1
  mgrOther : t.mgr (!a.who) = s.mgr (!a.who)
  inbox : t.inbox a.who = s.left a
  inboxOther : t.inbox (!a.who) = s.inbox (!a.who) ++
    ((if (s.mgr a.who).partner = (s.mgr !a.who).addr then partnerMsgs (s.handled hash a).2 else [])
      ++ s.replied hash a)
  log : t.log a.who = (serverMsgs (s.handled hash a).2).reverse ++ s.log a.who
  logOther : t.log (!a.who) = s.log (!a.who)

/-- The end of a handler, and the response that goes out after it. -/
theorem stepped_of_finish {u : Managers} {ms : List PartnerMsg} (hm : u.mgr = s.mgr)
    (hl : u.log = s.log) (hi : u.inbox a.who = s.left a)
    (ho : u.inbox (!a.who) = s.inbox (!a.who)) (hr : s.replied hash a = ms)
    (h : u.finish a.who (s.handled hash a) = some t) :
    Stepped hash s a { t with
      inbox := Function.update t.inbox (!a.who) (t.inbox (!a.who) ++ ms) } := by
  obtain ⟨h1, h2, h3⟩ := finish_eq h
  have hne := not_who_ne a.who
  refine ⟨?_, ?_, ?_, ?_, ?_, ?_⟩
  · show t.mgr a.who = _
    rw [h1, Function.update_self]
  · show t.mgr (!a.who) = _
    rw [h1, Function.update_of_ne hne.symm, hm]
  · show Function.update t.inbox (!a.who) _ a.who = _
    rw [Function.update_of_ne hne, h2, Function.update_of_ne hne, hi]
  · show Function.update t.inbox (!a.who) _ (!a.who) = _
    rw [Function.update_self, h2, Function.update_self, ho, hm, hr, List.append_assoc]
  · show t.log a.who = _
    rw [h3, Function.update_self, hl]
  · show t.log (!a.who) = _
    rw [h3, Function.update_of_ne hne.symm, hl]

theorem stepped_of_finish_self (hi : s.left a = s.inbox a.who) (hr : s.replied hash a = [])
    (h : s.finish a.who (s.handled hash a) = some t) : Stepped hash s a t := by
  have ht := stepped_of_finish rfl rfl hi.symm rfl hr h
  rwa [List.append_nil, Function.update_eq_self] at ht

/-- A message that its receiver does not take changes nothing but the inbox. -/
theorem stepped_of_ignored {k : ℕ} {msg : PartnerMsg} {ms : List PartnerMsg}
    (hk : (s.inbox i)[k]? = some msg) (hm : s.handle hash i msg = (s.mgr i, []))
    (hr : s.reply hash i msg = ms) :
    Stepped hash s (.deliver i k) { s with
      inbox := Function.update (Function.update s.inbox i ((s.inbox i).eraseIdx k)) (!i)
        (s.inbox (!i) ++ ms) } := by
  have hh : s.handled hash (.deliver i k) = (s.mgr i, []) := by
    simp only [handled, hk, Option.elim, hm]
  have hr' : s.replied hash (.deliver i k) = ms := by
    simp only [replied, hk, Option.elim, hr]
  refine ⟨?_, rfl, ?_, ?_, ?_, rfl⟩
  · rw [hh]
    rfl
  · show Function.update _ (!i) _ i = _
    rw [Function.update_of_ne (not_who_ne i), Function.update_self]
    rfl
  · show Function.update _ (!i) _ (!i) = _
    rw [Function.update_self, hh, hr']
    simp only [partnerMsgs, List.filterMap_nil, ite_self, List.nil_append]
    rfl
  · rw [hh]
    rfl

theorem stepped_of_receive {k : ℕ} {msg : PartnerMsg} (hk : (s.inbox i)[k]? = some msg)
    (h : receive hash { s with inbox := Function.update s.inbox i ((s.inbox i).eraseIdx k) } i msg =
      some t) : Stepped hash s (.deliver i k) t := by
  have hh : s.handled hash (.deliver i k) = s.handle hash i msg := by
    simp only [handled, hk, Option.elim]
  have hr : s.replied hash (.deliver i k) = s.reply hash i msg := by
    simp only [replied, hk, Option.elim]
  have hself : Function.update s.inbox i ((s.inbox i).eraseIdx k) i = s.left (.deliver i k) := by
    rw [Function.update_self]
    rfl
  have hother : Function.update s.inbox i ((s.inbox i).eraseIdx k) (!i) = s.inbox (!i) :=
    Function.update_of_ne (not_who_ne i).symm _ _
  let u : Managers := { s with inbox := Function.update s.inbox i ((s.inbox i).eraseIdx k) }
  -- a handler that ran, and no response
  have hran : s.reply hash i msg = [] → u.finish i (s.handle hash i msg) = some t →
      Stepped hash s (.deliver i k) t := by
    intro h0 h
    rw [← hh] at h
    have ht := stepped_of_finish (s := s) (a := .deliver i k) (u := u) rfl rfl hself hother
      (hr.trans h0) h
    rwa [List.append_nil, Function.update_eq_self] at ht
  have hskip : s.reply hash i msg = [] → s.handle hash i msg = (s.mgr i, []) →
      Stepped hash s (.deliver i k) u := by
    intro h0 hm
    have ht := stepped_of_ignored hk hm h0
    rwa [List.append_nil, ← hother, Function.update_eq_self] at ht
  cases msg with
  | hashSpaceSync wseed rseed adjustClock =>
    simp only [receive] at h
    split_ifs at h with hp
    · cases h
      exact hskip rfl (by simp only [handle, if_pos hp])
    · exact hran rfl (by simpa only [handle, if_neg hp] using h)
  | replaceElection call hsseed adjustClock =>
    simp only [receive] at h
    split_ifs at h with hp
    · cases h
      have ht := @stepped_of_ignored hash s i k _ [.replaceElectionResult call none] hk
        (by simp only [handle, if_pos hp]) (by simp only [reply, if_pos hp])
      rwa [← hother] at ht
    · obtain ⟨v, hv, rfl⟩ := Option.map_eq_some_iff.1 h
      have hv : u.finish i (s.handled hash (.deliver i k)) = some v := by
        rw [hh]
        simpa only [handle, if_neg hp] using hv
      have ht := stepped_of_finish (s := s) (a := .deliver i k) (u := u) rfl rfl hself hother hr hv
      simp only [reply, if_neg hp] at ht
      cases hres : ((s.mgr i).onReplaceElection hash hsseed adjustClock).2 with
      | none =>
        simp only [hres, Option.map_none, Option.toList_none, List.append_nil,
          Function.update_eq_self] at ht
        exact ht
      | some res =>
        simp only [hres, Option.map_some, Option.toList_some] at ht
        exact ht
  | replaceElectionResult call res =>
    simp only [receive] at h
    split_ifs at h with hc
    · exact hran rfl (by simpa only [handle, if_pos hc] using h)
    · cases h
      exact hskip rfl (by simp only [handle, if_neg hc])

theorem stepped_of_step (h : step hash s a = some t) : Stepped hash s a t := by
  cases a with
  | deliver i k =>
    obtain ⟨msg, hk, h⟩ := Option.bind_eq_some_iff.1 h
    exact stepped_of_receive hk h
  | removeLocked i a ct =>
    simp only [step] at h
    split_ifs at h
    exact stepped_of_finish_self rfl rfl h
  | invalidate i =>
    simp only [step] at h
    split_ifs at h
    exact stepped_of_finish_self rfl rfl h
  | fire i cas =>
    simp only [step] at h
    split_ifs at h
    exact stepped_of_finish_self rfl rfl h
  | electionFailed i call =>
    simp only [step] at h
    split_ifs at h
    exact stepped_of_finish_self rfl rfl h
  | copyEnd i replaceTime adjustClock b =>
    simp only [step] at h
    split_ifs at h
    exact stepped_of_finish_self rfl rfl h
  | publish i =>
    simp only [step] at h
    split_ifs at h
    exact stepped_of_finish_self rfl rfl h
  | deleteEnd i replaceTime adjustClock b =>
    simp only [step] at h
    split_ifs at h
    exact stepped_of_finish_self rfl rfl h
  | connect i a => exact stepped_of_finish_self rfl rfl h
  | lost i a => exact stepped_of_finish_self rfl rfl h
  | partnerConnected i => exact stepped_of_finish_self rfl rfl h
  | attach i replace => exact stepped_of_finish_self rfl rfl h
  | detach i replace => exact stepped_of_finish_self rfl rfl h
  | setAutoReplace i enable => exact stepped_of_finish_self rfl rfl h
  | startReplace i full => exact stepped_of_finish_self rfl rfl h
  | clockUpdate i c => exact stepped_of_finish_self rfl rfl h
  | keepAlive i => exact stepped_of_finish_self rfl rfl h
  | time i t => exact stepped_of_finish_self rfl rfl h
  | expire i k => exact stepped_of_finish_self rfl rfl h

/-! ## Calls of the partner -/

theorem quiet_self (m : Manager) : Manager.Quiet m (m, []) := Manager.quiet_nil rfl rfl rfl rfl

/-- An election delegates the replace to a partner of a smaller address. -/
theorem replaceElection_cases (hash : Bytes → UInt64) (m : Manager) :
    Manager.Quiet m (m.replaceElection hash) ∧ ¬ (m.partner.connectable ∧ m.partner < m.addr) ∨
    m.partner < m.addr ∧ copyStarts (m.replaceElection hash).2 = [] ∧
      ∃ r, Manager.Quiet m r ∧
        m.replaceElection hash = Manager.andThen r Manager.delegateReplace := by
  have hq := @Manager.quiet_attachDetach hash m
  unfold Manager.replaceElection
  simp only []
  split_ifs with hp
  · refine .inr ⟨hp.2, ?_, _, hq, rfl⟩
    simp only [Manager.andThen, copyStarts_append, Manager.attachNewServers,
      Manager.detachFaultServers, Manager.syncHashSpacePartner_copyStarts, Manager.delegateReplace]
    rfl
  · exact .inl ⟨hq.andThen (Manager.quiet_startReplace false), hp⟩

/-- A handler is quiet, delegates a replace or hears of one it delegated. -/
theorem handled_cases (hash : Bytes → UInt64) (s : Managers) (a : Act) :
    Manager.Quiet (s.mgr a.who) (s.handled hash a) ∨
    (∃ cas, a = .fire a.who cas ∧ (s.mgr a.who).partner < (s.mgr a.who).addr ∧
      copyStarts (s.handled hash a).2 = [] ∧
      ∃ r, Manager.Quiet (s.mgr a.who) r ∧
        s.handled hash a = Manager.andThen r Manager.delegateReplace) ∨
    ∃ call res, s.handled hash a = (s.mgr a.who).onElectionResult call res ∧
      (a = .electionFailed a.who call ∧ res = none ∨
        ∃ k, a = .deliver a.who k ∧
          (s.inbox a.who)[k]? = some (.replaceElectionResult call res)) := by
  cases a with
  | fire i cas =>
    simp only [handled, Act.who, Manager.casCheckedReplaceElection]
    split_ifs
    · rcases replaceElection_cases hash
        { s.mgr i with timers := (s.mgr i).timers.erase cas } with ⟨h, -⟩ | ⟨hp, hc, r, hr, h⟩
      · exact .inl ⟨h.addr, h.partner, h.calls, h.nextCall, h.syncs⟩
      · exact .inr (.inl ⟨cas, rfl, hp, hc, r,
          ⟨hr.addr, hr.partner, hr.calls, hr.nextCall, hr.syncs⟩, h⟩)
    · exact .inl (Manager.quiet_nil rfl rfl rfl rfl)
  | electionFailed i call => exact .inr (.inr ⟨call, none, rfl, .inl ⟨rfl, rfl⟩⟩)
  | deliver i k =>
    simp only [handled, Act.who]
    cases hk : (s.inbox i)[k]? with
    | none => exact .inl (quiet_self _)
    | some msg =>
      cases msg with
      | hashSpaceSync wseed rseed adjustClock =>
        left
        simp only [Option.elim, handle]
        split_ifs
        · exact quiet_self _
        · exact Manager.quiet_nil rfl rfl rfl rfl
      | replaceElection call hsseed adjustClock =>
        left
        simp only [Option.elim, handle]
        split_ifs
        · exact quiet_self _
        · exact Manager.quiet_onReplaceElection hsseed adjustClock
      | replaceElectionResult call res =>
        simp only [Option.elim, handle]
        split_ifs
        · exact .inr (.inr ⟨call, res, rfl, .inr ⟨k, rfl, hk⟩⟩)
        · exact .inl (quiet_self _)
  | connect i a => exact .inl (Manager.quiet_addServer a)
  | removeLocked i a ct => exact .inl (Manager.quiet_removeServerLocked a ct)
  | partnerConnected i => exact .inl Manager.quiet_syncHashSpacePartner
  | attach i replace => exact .inl (Manager.quiet_controlAttach replace)
  | detach i replace => exact .inl (Manager.quiet_controlDetach replace)
  | setAutoReplace i enable => exact .inl (Manager.quiet_setAutoReplace enable)
  | startReplace i full => exact .inl (Manager.quiet_startReplace full)
  | copyEnd i replaceTime adjustClock b =>
    exact .inl (Manager.quiet_replaceCopyEnd replaceTime adjustClock b)
  | publish i => exact .inl Manager.quiet_publish
  | lost i a => exact .inl (Manager.quiet_nil rfl rfl rfl rfl)
  | invalidate i => exact .inl (Manager.quiet_nil rfl rfl rfl rfl)
  | deleteEnd i replaceTime adjustClock b => exact .inl (Manager.quiet_nil rfl rfl rfl rfl)
  | clockUpdate i c => exact .inl (Manager.quiet_nil rfl rfl rfl rfl)
  | keepAlive i => exact .inl (Manager.quiet_nil rfl rfl rfl rfl)
  | time i t => exact .inl (Manager.quiet_nil rfl rfl rfl rfl)
  | expire i k => exact .inl (Manager.quiet_nil rfl rfl rfl rfl)

theorem onElectionResult_quiet {m : Manager} {call : ℕ} {res : Option Bool} :
    Manager.Quiet { m with calls := m.calls.erase call } (m.onElectionResult call res) := by
  unfold Manager.onElectionResult
  simp only []
  split_ifs
  · exact Manager.quiet_startReplace false
  · exact quiet_self _

/-- The addresses stay as they are configured. -/
theorem Stepped.addr (h : Stepped hash s a t) (i : Bool) :
    (t.mgr i).addr = (s.mgr i).addr ∧ (t.mgr i).partner = (s.mgr i).partner := by
  rcases who_or a i with rfl | rfl
  · rw [h.mgr]
    rcases handled_cases hash s a with hq | ⟨cas, -, -, -, r, hq, hr⟩ | ⟨call, res, hr, -⟩
    · exact ⟨hq.addr, hq.partner⟩
    · rw [hr]
      exact ⟨hq.addr, hq.partner⟩
    · rw [hr]
      exact ⟨onElectionResult_quiet.addr, onElectionResult_quiet.partner⟩
  · rw [h.mgrOther]
    exact ⟨rfl, rfl⟩

/-! ## What is in the inboxes after a step -/

/-- A message stays, or it is the one delivered. -/
theorem left_or_delivered {msg : PartnerMsg} (h : msg ∈ s.inbox a.who) :
    msg ∈ s.left a ∨ ∃ k, a = .deliver a.who k ∧ (s.inbox a.who)[k]? = some msg := by
  cases a with
  | deliver i k =>
    obtain ⟨j, hj⟩ := List.mem_iff_getElem?.1 h
    by_cases hjk : j = k
    · exact .inr ⟨k, rfl, hjk ▸ hj⟩
    · exact .inl (List.mem_eraseIdx_iff_getElem?.2 ⟨j, hjk, hj⟩)
  | _ => exact .inl h

theorem mem_inbox_of_left {msg : PartnerMsg} (h : msg ∈ s.left a) : msg ∈ s.inbox a.who := by
  cases a with
  | deliver i k => exact List.mem_of_mem_eraseIdx h
  | _ => exact h

theorem eq_result_of_replied {msg : PartnerMsg} (h : msg ∈ s.replied hash a) :
    ∃ call res, msg = .replaceElectionResult call res := by
  cases a with
  | deliver i k =>
    simp only [replied] at h
    cases hk : (s.inbox i)[k]? with
    | none => simp [hk] at h
    | some m =>
      simp only [hk, Option.elim] at h
      cases m with
      | replaceElection call hsseed adjustClock =>
        simp only [reply] at h
        split_ifs at h
        · exact ⟨call, none, List.mem_singleton.1 h⟩
        · obtain ⟨res, -, rfl⟩ := Option.map_eq_some_iff.1 (Option.mem_toList.1 h)
          exact ⟨call, res, rfl⟩
      | _ => exact absurd h List.not_mem_nil
  | _ => exact absurd h List.not_mem_nil

theorem Stepped.mem_inbox (h : Stepped hash s a t) {j : Bool} {msg : PartnerMsg}
    (hm : msg ∈ t.inbox j) : msg ∈ s.inbox j ∨
      j = (!a.who) ∧ (msg ∈ partnerMsgs (s.handled hash a).2 ∨ msg ∈ s.replied hash a) := by
  rcases who_or a j with rfl | rfl
  · rw [h.inbox] at hm
    exact .inl (mem_inbox_of_left hm)
  · rw [h.inboxOther, List.mem_append, List.mem_append] at hm
    rcases hm with hm | hm | hm
    · exact .inl hm
    · split_ifs at hm
      · exact .inr ⟨rfl, .inl hm⟩
      · exact absurd hm List.not_mem_nil
    · exact .inr ⟨rfl, .inr hm⟩

theorem mem_partnerMsgs {outs : List Out} {msg : PartnerMsg} :
    msg ∈ partnerMsgs outs ↔ .partner msg ∈ outs := by
  unfold partnerMsgs
  rw [List.mem_filterMap]
  constructor
  · rintro ⟨o, ho, h⟩
    cases o with
    | partner m => simpa [← Option.some.inj h] using ho
    | _ => exact absurd h (by simp)
  · exact fun h => ⟨_, h, rfl⟩

theorem mem_serverMsgs {outs : List Out} {p : List Address × ServerMsg} :
    p ∈ serverMsgs outs ↔ .servers p.1 p.2 ∈ outs := by
  unfold serverMsgs
  rw [List.mem_filterMap]
  constructor
  · rintro ⟨o, ho, h⟩
    cases o with
    | servers dests m => simpa [← Option.some.inj h] using ho
    | _ => exact absurd h (by simp)
  · exact fun h => ⟨_, h, rfl⟩

end Kumofs.Managers
