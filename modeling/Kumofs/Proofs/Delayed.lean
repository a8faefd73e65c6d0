import Kumofs.Proofs.DoAfter
import Kumofs.Proofs.Managers
import Kumofs.Sample
import Kumofs.System.Delayed

/-!
# Elections by the timer

The timers that the two managers are described with are those that wait in `m_do_after`. As long as
a server waits to be joined, an election is to come for it. A timer finds that it is the last only
when no server has come or gone for the whole delay; for this the numbers must not repeat.
-/

namespace Kumofs

open Machine (Run Free)

/-! ## What a handler makes of the timers -/

namespace Manager

variable {hash : Bytes → UInt64} {m m' m'' : Manager}

theorem addServer_eq (a : Address) (m : Manager) :
    m.addServer a =
      if (m.addServerHeld a).2 && (m.addServerHeld a).1.autoReplace then
        (m.addServerHeld a).1.delayedReplaceElection
      else (m.addServerHeld a).1 := by
  unfold addServer addServerHeld
  generalize (if a ∈ m.nodes then m.nodes else m.nodes ++ [a]) = ns
  simp only []
  split_ifs with hact hauto <;> simp_all

theorem removeServerLocked_eq (a : Address) (ct : ClockTime) (m : Manager) :
    m.removeServerLocked a ct =
      andThen (m.removeServerHeld a ct) fun m =>
        if m.autoReplace then (m.delayedReplaceElection, [])
        else ({ m with invalidating := m.invalidating + 1 }, []) := by
  unfold removeServerLocked removeServerHeld andThen
  simp only [List.append_nil]

theorem setAutoReplace_eq (hash : Bytes → UInt64) (enable : Bool) (m : Manager) :
    m.setAutoReplace hash enable =
      if m.autoReplace = enable then (m, [])
      else if enable then attachDetach hash { m with autoReplace := true }
      else ({ m with autoReplace := false }, []) := by
  unfold setAutoReplace attachDetach
  cases hm : m.autoReplace <;> cases enable <;> rfl

/-- The timers stay as they are, and no server waits for an election that did not wait before. -/
structure KeepsTimers (m m' : Manager) : Prop where
  timers : m'.timers = m.timers
  cas : m'.delayedReplaceCas = m.delayedReplaceCas
  waits : m'.autoReplace → m'.newServers ≠ [] → m.autoReplace ∧ m.newServers ≠ []

theorem keepsTimers_refl (m : Manager) : KeepsTimers m m := ⟨rfl, rfl, fun ha hn => ⟨ha, hn⟩⟩

theorem KeepsTimers.trans (h : KeepsTimers m m') (h' : KeepsTimers m' m'') : KeepsTimers m m'' :=
  ⟨h'.timers.trans h.timers, h'.cas.trans h.cas, fun ha hn =>
    h.waits (h'.waits ha hn).1 (h'.waits ha hn).2⟩

theorem keepsTimers_of_eq (ht : m'.timers = m.timers)
    (hc : m'.delayedReplaceCas = m.delayedReplaceCas) (ha : m'.autoReplace = m.autoReplace)
    (hn : m'.newServers = m.newServers) : KeepsTimers m m' :=
  ⟨ht, hc, fun h h' => ⟨ha ▸ h, hn ▸ h'⟩⟩

theorem keepsTimers_of_nil (ht : m'.timers = m.timers)
    (hc : m'.delayedReplaceCas = m.delayedReplaceCas) (hn : m'.newServers = []) :
    KeepsTimers m m' :=
  ⟨ht, hc, fun _ h => absurd hn h⟩

theorem keepsTimers_syncHashSpacePartner : KeepsTimers m m.syncHashSpacePartner.1 := by
  obtain ⟨c, hc⟩ := syncHashSpacePartner_eq (m := m)
  rw [hc]
  exact keepsTimers_of_eq rfl rfl rfl rfl

theorem keepsTimers_attachNewServers : KeepsTimers m (m.attachNewServers hash).1 := by
  obtain ⟨c, hc⟩ := attachNewServers_eq hash m
  rw [hc]
  exact keepsTimers_of_nil rfl rfl rfl

theorem keepsTimers_detachFaultServers : KeepsTimers m (m.detachFaultServers hash).1 := by
  obtain ⟨c, hc⟩ := detachFaultServers_eq hash m
  rw [hc]
  exact keepsTimers_of_eq rfl rfl rfl rfl

theorem keepsTimers_startReplace (full : Bool) : KeepsTimers m (m.startReplace full).1 :=
  keepsTimers_of_eq rfl rfl rfl rfl

/-- All servers that wait are joined, or are not servers any more. -/
theorem attachDetach_timers (hash : Bytes → UInt64) (m : Manager) :
    KeepsTimers m (m.attachDetach hash).1 ∧ (m.attachDetach hash).1.newServers = [] := by
  obtain ⟨c, hc⟩ := attachNewServers_eq hash m
  obtain ⟨d, hd⟩ := detachFaultServers_eq hash (m.attachNewServers hash).1
  unfold attachDetach andThen
  rw [hc] at hd ⊢
  rw [hd]
  exact ⟨keepsTimers_of_nil rfl rfl rfl, rfl⟩

/-- An election leaves no server waiting. -/
theorem replaceElection_timers (hash : Bytes → UInt64) (m : Manager) :
    KeepsTimers m (m.replaceElection hash).1 ∧ (m.replaceElection hash).1.newServers = [] := by
  obtain ⟨hk, hn⟩ := attachDetach_timers hash m
  unfold attachDetach at hk hn
  unfold replaceElection
  generalize andThen (attachNewServers hash m) (detachFaultServers hash) = r at hk hn ⊢
  simp only []
  split_ifs
  · exact ⟨hk.trans (keepsTimers_of_eq rfl rfl rfl rfl), hn⟩
  · exact ⟨hk.trans (keepsTimers_startReplace false), hn⟩

theorem keepsTimers_removeServerHeld (a : Address) (ct : ClockTime) :
    KeepsTimers m (m.removeServerHeld a ct).1 := by
  obtain ⟨c, hc⟩ := faultServer_eq ct a { m with removing := m.removing.erase (a, ct) }
  unfold removeServerHeld andThen
  rw [hc]
  refine ⟨rfl, rfl, fun ha hn => ⟨ha, fun h0 => hn ?_⟩⟩
  simp only [h0, List.filter_nil]

/-- Where `change` is `false`, no server waits that did not. -/
theorem addServerHeld_timers (a : Address) :
    (m.addServerHeld a).1.timers = m.timers ∧
      (m.addServerHeld a).1.delayedReplaceCas = m.delayedReplaceCas ∧
      ((m.addServerHeld a).2 = false → KeepsTimers m (m.addServerHeld a).1) := by
  unfold addServerHeld
  generalize (if a ∈ m.nodes then m.nodes else m.nodes ++ [a]) = ns
  simp only []
  split_ifs
  · exact ⟨rfl, rfl, fun _ => keepsTimers_of_eq rfl rfl rfl rfl⟩
  · exact ⟨rfl, rfl, fun h => absurd h (by simp)⟩

theorem keepsTimers_hashSpaceSync (wseed rseed : Seed) (c : UInt32) :
    KeepsTimers m (m.hashSpaceSync hash wseed rseed c) :=
  ⟨rfl, rfl, fun ha hn => ⟨ha, fun h0 => hn (by
    simp only [hashSpaceSync, clockUpdate, h0, List.filter_nil])⟩⟩

theorem keepsTimers_onReplaceElection (hsseed : Seed) (c : UInt32) :
    KeepsTimers m (m.onReplaceElection hash hsseed c).1.1 := by
  have hk : KeepsTimers m (m.clockUpdate c) := keepsTimers_of_eq rfl rfl rfl rfl
  have hj := (attachDetach_timers hash (m.clockUpdate c)).1
  unfold attachDetach at hj
  unfold onReplaceElection
  simp only []
  generalize andThen (attachNewServers hash (m.clockUpdate c)) (detachFaultServers hash) = r at hj ⊢
  split_ifs
  · exact hk
  · exact hk
  · exact hk
  · exact hk.trans (hj.trans (keepsTimers_startReplace false))

theorem keepsTimers_onElectionResult (call : ℕ) (res : Option Bool) :
    KeepsTimers m (m.onElectionResult call res).1 := by
  unfold onElectionResult
  simp only []
  split_ifs
  · exact keepsTimers_of_eq rfl rfl rfl rfl
  · exact keepsTimers_of_eq rfl rfl rfl rfl

theorem keepsTimers_controlAttach (replace : Bool) :
    KeepsTimers m (m.controlAttach hash replace).1 := by
  unfold controlAttach
  split_ifs
  · exact keepsTimers_attachNewServers.trans (keepsTimers_startReplace false)
  · exact keepsTimers_attachNewServers

theorem keepsTimers_controlDetach (replace : Bool) :
    KeepsTimers m (m.controlDetach hash replace).1 := by
  unfold controlDetach
  split_ifs
  · exact keepsTimers_detachFaultServers.trans (keepsTimers_startReplace false)
  · exact keepsTimers_detachFaultServers

theorem keepsTimers_replaceCopyEnd (replaceTime : ClockTime) (c : UInt32) (a : Address) :
    KeepsTimers m (m.replaceCopyEnd replaceTime c a).1 := by
  unfold replaceCopyEnd
  simp only []
  split_ifs
  · exact keepsTimers_of_eq rfl rfl rfl rfl
  · exact keepsTimers_of_eq rfl rfl rfl rfl

theorem keepsTimers_publish : KeepsTimers m m.publish.1 := by
  obtain ⟨c, hc⟩ := syncHashSpacePartner_eq (m := { m with rhs := m.whs, finishing := false })
  show KeepsTimers m (Manager.syncHashSpacePartner { m with rhs := m.whs, finishing := false }).1
  rw [hc]
  exact keepsTimers_of_eq rfl rfl rfl rfl

end Manager

namespace Managers

open Manager

variable {hash : Bytes → UInt64} {s t : Managers} {a : Act} {i : Bool}

theorem handle_timers (i : Bool) (msg : PartnerMsg) :
    KeepsTimers (s.mgr i) (s.handle hash i msg).1 := by
  cases msg with
  | hashSpaceSync wseed rseed c =>
    simp only [handle]
    split_ifs
    · exact keepsTimers_refl _
    · exact keepsTimers_hashSpaceSync wseed rseed c
  | replaceElection call hsseed c =>
    simp only [handle]
    split_ifs
    · exact keepsTimers_refl _
    · exact keepsTimers_onReplaceElection hsseed c
  | replaceElectionResult call res =>
    simp only [handle]
    split_ifs
    · exact keepsTimers_onElectionResult call res
    · exact keepsTimers_refl _

theorem handled_timers (hw : Delayed.Whole a) :
    KeepsTimers (s.mgr a.who) (s.handled hash a).1 := by
  cases a with
  | fire i cas => cases hw
  | connect i b => cases hw
  | removeLocked i b ct => cases hw
  | setAutoReplace i enable => cases hw
  | lost i b => exact keepsTimers_of_eq rfl rfl rfl rfl
  | invalidate i => exact keepsTimers_of_eq rfl rfl rfl rfl
  | partnerConnected i => exact keepsTimers_syncHashSpacePartner
  | deliver i k =>
    simp only [handled, Act.who]
    cases (s.inbox i)[k]? with
    | none => exact keepsTimers_refl _
    | some msg => exact handle_timers i msg
  | electionFailed i call => exact keepsTimers_onElectionResult call none
  | attach i replace => exact keepsTimers_controlAttach replace
  | detach i replace => exact keepsTimers_controlDetach replace
  | startReplace i full => exact keepsTimers_startReplace full
  | copyEnd i replaceTime c b => exact keepsTimers_replaceCopyEnd replaceTime c b
  | publish i => exact keepsTimers_publish
  | deleteEnd i replaceTime c b => exact keepsTimers_of_eq rfl rfl rfl rfl
  | clockUpdate i c => exact keepsTimers_of_eq rfl rfl rfl rfl
  | keepAlive i => exact keepsTimers_of_eq rfl rfl rfl rfl
  | time i u => exact keepsTimers_of_eq rfl rfl rfl rfl
  | expire i k =>
    refine ⟨rfl, rfl, fun ha hn => ⟨ha, fun h0 => hn ?_⟩⟩
    simp only [handled, Act.who] at h0 ⊢
    rw [h0, List.modify_nil]

/-- A handler that is not cut, at both managers. -/
theorem step_timers (h : s.step hash a = some t) (hw : Delayed.Whole a) (i : Bool) :
    KeepsTimers (s.mgr i) (t.mgr i) := by
  have hst := stepped_of_step h
  rcases who_or a i with rfl | rfl
  · rw [hst.mgr]
    exact handled_timers hw
  · rw [hst.mgrOther]
    exact keepsTimers_refl _

end Managers

/-! ## What happens at one manager -/

namespace Delayed

open WavyServer Manager

/-- A manager, the calls at it and what it has given to `do_after`. -/
structure Side where
  mgr : Manager
  calls : Underway
  server : WavyServer UInt32

def side (s : Delayed) (i : Bool) : Side := ⟨s.net.mgr i, s.calls i, s.server i⟩

namespace Side

variable {x y z : Side} {m : Manager} {c : Underway} {steps : ℕ}

/-- The numbers that were given out. -/
def given (x : Side) : List UInt32 := x.server.asked.map (·.func) ++ x.calls.asking

/-- Where a server waits, an election is to come. -/
def Coming (x : Side) : Prop :=
  x.mgr.autoReplace → x.mgr.newServers ≠ [] →
    (0 < x.calls.added ∨ 0 < x.calls.attaching ∨ 0 < x.calls.delaying ∨ 0 < x.calls.electing) ∨
      x.mgr.delayedReplaceCas ∈ x.mgr.timers

/-- What a step is at a manager. -/
inductive Moves (steps : ℕ) (x : Side) : Side → Prop
  | keeps {m : Manager} {c : Underway} (timers : m.timers = x.mgr.timers)
      (cas : m.delayedReplaceCas = x.mgr.delayedReplaceCas) (asking : c.asking = x.calls.asking)
      (coming : x.Coming → Coming ⟨m, c, x.server⟩) : Moves steps x ⟨m, c, x.server⟩
  | delayed {c : Underway}
      (asking : c.asking = x.calls.asking ++ [x.mgr.delayedReplaceCas + 1]) :
      Moves steps x ⟨x.mgr.delayedReplaceElection, c, x.server⟩
  | doAfter {cas : UInt32} (asking : cas ∈ x.calls.asking) :
      Moves steps x ⟨x.mgr, { x.calls with asking := x.calls.asking.erase cas },
        x.server.ask steps cas⟩
  | waits {w : WavyServer UInt32} (pending : w.pending.Perm x.server.pending)
      (asked : w.asked = x.server.asked) (called : w.called = x.server.called)
      (fire : x.server.fire.length ≤ w.fire.length) (onTime : x.server.OnTime → w.OnTime) :
      Moves steps x ⟨x.mgr, x.calls, w⟩
  | call {k : ℕ} {cas : UInt32} {w : WavyServer UInt32} (call : x.server.call k = some (cas, w)) :
      Moves steps x ⟨{ x.mgr with timers := x.mgr.timers.erase cas },
        { x.calls with
          electing := x.calls.electing + if x.mgr.delayedReplaceCas = cas then 1 else 0 }, w⟩

/-- Nobody that was to come is gone, and no server has come. -/
theorem Coming.mono (h : x.Coming) (hk : KeepsTimers x.mgr m) (had : x.calls.added ≤ c.added)
    (hat : x.calls.attaching ≤ c.attaching) (hd : x.calls.delaying ≤ c.delaying)
    (he : x.calls.electing ≤ c.electing) : Coming ⟨m, c, x.server⟩ := by
  intro ha hn
  obtain ⟨ha, hn⟩ := hk.waits ha hn
  rcases h ha hn with h | h
  · left
    simp only []
    omega
  · right
    simp only []
    rw [hk.timers, hk.cas]
    exact h

theorem coming_of_nil (hn : m.newServers = []) : Coming ⟨m, c, x.server⟩ :=
  fun _ h => absurd hn h

theorem coming_of_off (ha : ¬ m.autoReplace) : Coming ⟨m, c, x.server⟩ :=
  fun h => absurd h ha

theorem moves_of_keeps (hk : KeepsTimers x.mgr m) (hask : c.asking = x.calls.asking)
    (had : x.calls.added ≤ c.added) (hat : x.calls.attaching ≤ c.attaching)
    (hd : x.calls.delaying ≤ c.delaying) (he : x.calls.electing ≤ c.electing) :
    Moves steps x ⟨m, c, x.server⟩ :=
  .keeps hk.timers hk.cas hask fun h => h.mono hk had hat hd he

theorem moves_self : Moves steps x x :=
  .keeps rfl rfl rfl id

theorem moves_timed {w : WavyServer UInt32} (h : Timed x.server w) :
    Moves steps x ⟨x.mgr, x.calls, w⟩ :=
  .waits (.of_eq h.pending) h.asked h.called (by rw [h.fire]) h.onTime

/-! ## The timers and what waits in `m_do_after` -/

/-- The numbers up to `cas` were given out, each once. -/
def Numbered (l : List UInt32) (cas : UInt32) : Prop :=
  l.Perm ((List.range l.length).map fun n => UInt32.ofNat (n + 1)) ∧ cas = UInt32.ofNat l.length

theorem Numbered.perm {l l' : List UInt32} {cas : UInt32} (h : Numbered l cas) (hl : l'.Perm l) :
    Numbered l' cas := by
  unfold Numbered
  rw [hl.length_eq]
  exact ⟨hl.trans h.1, h.2⟩

theorem Numbered.concat {l : List UInt32} {cas : UInt32} (h : Numbered l cas) :
    Numbered (l ++ [cas + 1]) (cas + 1) := by
  have hnext : cas + 1 = UInt32.ofNat (l.length + 1) := by
    rw [h.2, UInt32.ofNat_add]
    rfl
  unfold Numbered
  rw [List.length_append, List.length_singleton, List.range_succ, List.map_append,
    List.map_singleton, ← hnext]
  exact ⟨h.1.append_right _, rfl⟩

/-- The timers of a manager are the calls of `do_after` under way and what waits for its time, and
the numbers were given out one after the other. -/
structure Inv (steps : ℕ) (x : Side) : Prop where
  coming : x.Coming
  perm : x.mgr.timers.Perm (x.calls.asking ++ x.server.pending)
  onTime : x.server.OnTime
  steps : ∀ c ∈ x.server.asked, c.steps = steps
  numbered : Numbered x.given x.mgr.delayedReplaceCas

theorem Inv.delayed (h : x.Inv steps)
    (hc : c.asking = x.calls.asking ++ [x.mgr.delayedReplaceCas + 1]) :
    Inv steps ⟨x.mgr.delayedReplaceElection, c, x.server⟩ := by
  refine ⟨fun _ _ => .inr ?_, ?_, h.onTime, h.steps, ?_⟩
  · exact List.mem_append_right _ (List.mem_singleton_self _)
  · have hp := h.perm.append_right [x.mgr.delayedReplaceCas + 1]
    rw [List.append_assoc] at hp
    simp only [hc, List.append_assoc]
    exact hp.trans (List.perm_append_comm.append_left _)
  · have hgiven : given ⟨x.mgr.delayedReplaceElection, c, x.server⟩ =
        x.given ++ [x.mgr.delayedReplaceCas + 1] := by
      simp only [given, hc, List.append_assoc]
    rw [hgiven]
    exact h.numbered.concat

theorem Inv.doAfter {cas : UInt32} (h : x.Inv steps) (hc : cas ∈ x.calls.asking) :
    Inv steps ⟨x.mgr, { x.calls with asking := x.calls.asking.erase cas },
      x.server.ask steps cas⟩ := by
  have hp := List.perm_cons_erase hc
  refine ⟨h.coming, ?_, onTime_ask h.onTime _ _, fun d hd => ?_, h.numbered.perm ?_⟩
  · simp only [pending_ask]
    refine h.perm.trans ((hp.append_right _).trans ?_)
    rw [List.cons_append, ← List.append_assoc]
    exact (List.perm_append_singleton _ _).symm
  · rcases List.mem_append.1 hd with hd | hd
    · exact h.steps d hd
    · rw [List.mem_singleton.1 hd]
  · simp only [given, ask, List.map_append, List.map_cons, List.map_nil, List.append_assoc,
      List.singleton_append]
    exact hp.symm.append_left _

theorem Inv.call {k : ℕ} {cas : UInt32} {w : WavyServer UInt32} (h : x.Inv steps)
    (hw : x.server.call k = some (cas, w)) :
    Inv steps ⟨{ x.mgr with timers := x.mgr.timers.erase cas },
      { x.calls with
        electing := x.calls.electing + if x.mgr.delayedReplaceCas = cas then 1 else 0 }, w⟩ := by
  have hp := h.perm.trans (((pending_call hw).append_left _).trans List.perm_middle)
  have hasked : w.asked = x.server.asked := by
    obtain ⟨rest, -, rfl⟩ := call_eq hw
    rfl
  refine ⟨fun ha hn => ?_, ?_, onTime_call h.onTime hw, hasked ▸ h.steps, ?_⟩
  · simp only []
    by_cases hcas : x.mgr.delayedReplaceCas = cas
    · left
      simp only [hcas, if_true]
      omega
    · rcases h.coming ha hn with hc | hc
      · left
        omega
      · exact .inr ((List.mem_erase_of_ne hcas).2 hc)
  · simpa only [List.erase_cons_head] using hp.erase cas
  · simp only [given, hasked]
    exact h.numbered

theorem Moves.inv (h : Moves steps x y) (hx : x.Inv steps) : y.Inv steps := by
  cases h with
  | keeps timers cas asking coming =>
    refine ⟨coming hx.coming, ?_, hx.onTime, hx.steps, ?_⟩
    · simp only [timers, asking]
      exact hx.perm
    · simp only [given, asking, cas]
      exact hx.numbered
  | delayed asking => exact hx.delayed asking
  | doAfter asking => exact hx.doAfter asking
  | waits pending asked called fire onTime =>
    refine ⟨hx.coming, hx.perm.trans (pending.symm.append_left _), onTime hx.onTime,
      asked ▸ hx.steps, ?_⟩
    simp only [given, asked]
    exact hx.numbered
  | call call => exact hx.call call

/-- A number that waits is the one of a call of `do_after`, and waits for the time it was given. -/
theorem Inv.due_of_pending {cas : UInt32} (h : x.Inv steps) (hc : cas ∈ x.server.pending) :
    ∃ c ∈ x.server.asked, c.func = cas ∧
      (x.server.fire.length ≤ c.due ∨ ∃ l, x.server.fire[c.due]? = some l ∧ cas ∈ l) := by
  rcases List.mem_append.1 hc with hc | hc
  · obtain ⟨l, hl, hc⟩ := List.mem_flatten.1 hc
    obtain ⟨k, hk⟩ := List.mem_iff_getElem?.1 hl
    have hdue : cas ∈ x.server.dueIn k := by
      rw [← h.onTime.fired k l hk]
      exact List.mem_append_right _ hc
    obtain ⟨c, hcf, rfl⟩ := List.mem_map.1 hdue
    obtain ⟨hca, hcd⟩ := List.mem_filter.1 hcf
    obtain rfl := of_decide_eq_true hcd
    exact ⟨c, hca, rfl, .inr ⟨l, hk, hc⟩⟩
  · rw [h.onTime.waiting, List.map_map] at hc
    obtain ⟨c, hcf, rfl⟩ := List.mem_map.1 hc
    obtain ⟨hca, hcd⟩ := List.mem_filter.1 hcf
    exact ⟨c, hca, rfl, .inl (of_decide_eq_true hcd)⟩

/-! ## The numbers -/

theorem toNat_number {n : ℕ} (h : n ≤ 2 ^ 32) :
    (UInt32.ofNat n).toNat = if n = 2 ^ 32 then 0 else n := by
  rw [UInt32.toNat_ofNat']
  split_ifs with he
  · rw [he, Nat.mod_self]
  · exact Nat.mod_eq_of_lt (by omega)

/-- The first numbers are different. -/
theorem number_inj {a b : ℕ} (ha : a + 1 ≤ 2 ^ 32) (hb : b + 1 ≤ 2 ^ 32)
    (h : UInt32.ofNat (a + 1) = UInt32.ofNat (b + 1)) : a = b := by
  have h := congrArg UInt32.toNat h
  rw [toNat_number ha, toNat_number hb] at h
  split_ifs at h <;> omega

/-- No number is given out twice. -/
theorem Numbered.nodup {l : List UInt32} {cas : UInt32} (h : Numbered l cas)
    (hl : l.length ≤ 2 ^ 32) : l.Nodup := by
  refine h.1.nodup_iff.2 (List.Nodup.map_on (fun a ha b hb hab => ?_) List.nodup_range)
  have := List.mem_range.1 ha
  have := List.mem_range.1 hb
  exact number_inj (by omega) (by omega) hab

/-- Where the last number was given out, no more are. -/
theorem Numbered.last {l : List UInt32} {cas : UInt32} {n : ℕ} (h : Numbered l cas)
    (hle : l.length ≤ n) (hn : n ≤ 2 ^ 32) (hm : UInt32.ofNat n ∈ l) : l.length = n := by
  obtain ⟨a, ha, hab⟩ := List.mem_map.1 (h.1.mem_iff.1 hm)
  have ha := List.mem_range.1 ha
  obtain ⟨b, rfl⟩ : ∃ b, n = b + 1 := ⟨n - 1, by omega⟩
  have := number_inj (by omega) hn hab
  omega

/-- What is new at a manager is newer than what was there. -/
structure Grown (x y : Side) : Prop where
  length : x.given.length ≤ y.given.length
  asked : ∀ c ∈ y.server.asked, c ∈ x.server.asked ∨ x.server.fire.length ≤ c.since
  called : ∀ c ∈ x.server.called, c ∈ y.server.called
  fire : x.server.fire.length ≤ y.server.fire.length

theorem grown_refl (x : Side) : Grown x x := ⟨le_rfl, fun _ => .inl, fun _ => id, le_rfl⟩

theorem Grown.trans (h : Grown x y) (h' : Grown y z) : Grown x z :=
  ⟨h.length.trans h'.length,
    fun c hc => (h'.asked c hc).elim (h.asked c) fun hc => .inr (h.fire.trans hc),
    fun c hc => h'.called c (h.called c hc), h.fire.trans h'.fire⟩

theorem Moves.grown (h : Moves steps x y) : Grown x y := by
  cases h with
  | keeps timers cas asking coming =>
    exact ⟨by simp only [given, asking, le_rfl], fun _ => .inl, fun _ => id, le_rfl⟩
  | delayed asking =>
    refine ⟨?_, fun _ => .inl, fun _ => id, le_rfl⟩
    simp only [given, asking, List.length_append, List.length_singleton]
    omega
  | doAfter asking =>
    refine ⟨?_, fun c hc => ?_, fun _ => id, le_rfl⟩
    · have hlen := (List.perm_cons_erase asking).length_eq
      simp only [given, ask, List.map_append, List.length_append, List.length_map,
        List.length_cons, List.length_nil] at hlen ⊢
      omega
    · rcases List.mem_append.1 hc with hc | hc
      · exact .inl hc
      · exact .inr (List.mem_singleton.1 hc ▸ le_rfl)
  | waits pending asked called fire onTime =>
    exact ⟨by simp only [given, asked, le_rfl], fun _ hc => .inl (asked ▸ hc),
      fun _ hc => called ▸ hc, fire⟩
  | call hw =>
    obtain ⟨rest, -, rfl⟩ := call_eq hw
    exact ⟨le_rfl, fun _ => .inl, fun _ => List.mem_append_left _, by rw [List.length_set]⟩

end Side

/-! ## What a step is -/

open Side (Moves)

variable {cfg : Config} {s t u : Delayed} {a : Act} {as bs : List Act} {i j : Bool} {k : ℕ}

theorem side_update {x : WavyServer UInt32} :
    (s.setServer i x).side i = ⟨s.net.mgr i, s.calls i, x⟩ ∧
      (s.setServer i x).side (!i) = s.side (!i) := by
  simp [side, setServer]

theorem side_setCalls {c : Underway} :
    (s.setCalls i c).side i = ⟨s.net.mgr i, c, s.server i⟩ ∧
      (s.setCalls i c).side (!i) = s.side (!i) := by
  simp [side, setCalls]

theorem side_finish {r : Manager × List Out} {c : Underway} (h : s.finish i r c = some t) :
    t.side i = ⟨r.1, c, s.server i⟩ ∧ t.side (!i) = s.side (!i) := by
  obtain ⟨net, hnet, rfl⟩ := Option.map_eq_some_iff.1 h
  have hself := Managers.finish_mgr hnet
  have hother := Managers.finish_mgr_ne hnet (Bool.not_ne_self i)
  simp [side, setCalls, hself, hother]

/-- A step at one manager is nothing at the other. -/
theorem moves_at {steps : Bool → ℕ} {x : Side} (h : t.side i = x ∧ t.side (!i) = s.side (!i))
    (hx : Moves (steps i) (s.side i) x) (j : Bool) : Moves (steps j) (s.side j) (t.side j) := by
  by_cases hj : j = i
  · subst hj
    exact h.1 ▸ hx
  · rw [Bool.eq_not_of_ne hj, h.2]
    exact Side.moves_self

/-- The steps that `do_after` is given. -/
def Config.steps (cfg : Config) (i : Bool) : ℕ := delaySteps (cfg.replaceDelaySeconds i)

theorem step_moves (h : s.step cfg a = some t) (j : Bool) :
    Moves (cfg.steps j) (s.side j) (t.side j) := by
  cases a with
  | handle b =>
    simp only [step] at h
    split_ifs at h with hw
    obtain ⟨net, hnet, rfl⟩ := Option.map_eq_some_iff.1 h
    exact Side.moves_of_keeps (Managers.step_timers hnet hw j) rfl le_rfl le_rfl le_rfl le_rfl
  | connect i b =>
    refine moves_at (side_finish h) ?_ j
    obtain ⟨ht, hc, hk⟩ := addServerHeld_timers (m := s.net.mgr i) b
    refine .keeps ht hc rfl fun hcoming => ?_
    cases hch : ((s.net.mgr i).addServerHeld b).2 with
    | false => exact hcoming.mono (hk hch) (Nat.le_add_right _ _) le_rfl le_rfl le_rfl
    | true =>
      intro _ _
      left
      left
      exact Nat.succ_pos _
  | added i =>
    simp only [step] at h
    split_ifs at h with h0 ha
    · refine moves_at (side_finish h) (.keeps rfl rfl rfl fun _ _ _ => ?_) j
      exact .inl (.inr (.inr (.inl (Nat.succ_pos _))))
    · exact moves_at (side_finish h) (.keeps rfl rfl rfl fun _ => Side.coming_of_off ha) j
  | removeLocked i b ct =>
    simp only [step] at h
    split_ifs at h
    exact moves_at (side_finish h) (Side.moves_of_keeps (keepsTimers_removeServerHeld b ct) rfl
      le_rfl le_rfl le_rfl le_rfl) j
  | removed i =>
    simp only [step] at h
    split_ifs at h with h0 ha
    · exact moves_at (side_finish h) (Side.moves_of_keeps (keepsTimers_refl _) rfl le_rfl le_rfl
        (Nat.le_succ _) le_rfl) j
    · exact moves_at (side_finish h) (Side.moves_of_keeps (keepsTimers_of_eq rfl rfl rfl rfl) rfl
        le_rfl le_rfl le_rfl le_rfl) j
  | setAutoReplace i enable =>
    simp only [step] at h
    split_ifs at h with ha
    · cases h
      exact Side.moves_self
    · cases h
      refine moves_at side_setCalls ?_ j
      exact Side.moves_of_keeps (keepsTimers_refl _) rfl le_rfl le_rfl le_rfl le_rfl
  | store i enable =>
    simp only [step] at h
    split_ifs at h with hm he
    · refine moves_at (side_finish h) (.keeps rfl rfl rfl fun _ _ _ => ?_) j
      exact .inl (.inr (.inl (Nat.succ_pos _)))
    · exact moves_at (side_finish h) (.keeps rfl rfl rfl fun _ => Side.coming_of_off he) j
  | attach i =>
    simp only [step] at h
    split_ifs at h
    obtain ⟨hk, hn⟩ := attachDetach_timers cfg.hash (s.net.mgr i)
    exact moves_at (side_finish h)
      (.keeps hk.timers hk.cas rfl fun _ => Side.coming_of_nil hn) j
  | delayedReplaceElection i =>
    simp only [step] at h
    split_ifs at h
    exact moves_at (side_finish h) (.delayed rfl) j
  | doAfter i cas =>
    simp only [step] at h
    split_ifs at h with hc
    cases h
    refine moves_at ?_ (.doAfter hc) j
    simp [side, setServer, setCalls, Config.steps]
  | timerHandler i =>
    cases h
    exact moves_at side_update (Side.moves_timed (timed_timerHandler _)) j
  | timerStep i k =>
    obtain ⟨x, hx, rfl⟩ := Option.map_eq_some_iff.1 h
    exact moves_at side_update (Side.moves_timed (timed_timerStep hx)) j
  | stepDoAfter i =>
    obtain ⟨x, hx, rfl⟩ := Option.map_eq_some_iff.1 h
    refine moves_at side_update (.waits (pending_stepDoAfter hx) ?_ ?_ ?_
      fun ho => onTime_stepDoAfter ho hx) j
    all_goals obtain ⟨-, rfl⟩ := stepDoAfter_eq hx
    · rfl
    · rfl
    · simp only [side, List.length_append]
      exact Nat.le_add_right _ _
  | call i k =>
    obtain ⟨⟨cas, x⟩, hx, h⟩ := Option.bind_eq_some_iff.1 h
    obtain ⟨hself, hother⟩ := side_finish h
    refine moves_at ⟨?_, hother.trans side_update.2⟩ (.call hx) j
    rw [hself]
    simp only [setServer, Function.update_self]
    rfl
  | replaceElection i =>
    simp only [step] at h
    split_ifs at h
    obtain ⟨hk, hn⟩ := replaceElection_timers cfg.hash (s.net.mgr i)
    exact moves_at (side_finish h)
      (.keeps hk.timers hk.cas rfl fun _ => Side.coming_of_nil hn) j

theorem step_inv (hs : (s.side i).Inv (cfg.steps i)) (h : s.step cfg a = some t) :
    (t.side i).Inv (cfg.steps i) :=
  (step_moves h i).inv hs

theorem run_inv (h : Run (step cfg) Free s as t) (hs : (s.side i).Inv (cfg.steps i)) :
    (t.side i).Inv (cfg.steps i) :=
  h.inv (I := fun u => (u.side i).Inv (cfg.steps i)) (fun _ _ _ hs _ => step_inv hs) hs

theorem inv_init (addr partner : Bool → Address) (clock : Bool → ClockLogic) (auto : Bool → Bool)
    (usec : Bool → UInt64) :
    ((init (.init addr partner clock auto) usec).side i).Inv (cfg.steps i) :=
  ⟨fun _ hn => absurd rfl hn, .nil, onTime_init _, fun _ hc => absurd hc List.not_mem_nil, .nil,
    rfl⟩

theorem run_grown (i : Bool) (h : Run (step cfg) Free s as t) : (s.side i).Grown (t.side i) :=
  h.inv (I := fun u => (s.side i).Grown (u.side i))
    (fun _ _ _ hs _ hst => hs.trans (step_moves hst i).grown) (Side.grown_refl _)

/-- While `auto_replace` is on and a server waits to be joined, an `add_server` or a
`SetAutoReplace` is about to see to it, a timer is about to begin its election, or the last
`delayed_replace_election` is about to call `do_after` or waits for no longer than the delay from
then on. The timers of the managers are those that wait. -/
theorem election_coming {addr partner : Bool → Address} {clock : Bool → ClockLogic}
    {auto : Bool → Bool} {usec : Bool → UInt64}
    (h : Run (step cfg) Free (init (.init addr partner clock auto) usec) as s) (i : Bool) :
    ((s.net.mgr i).autoReplace → (s.net.mgr i).newServers ≠ [] →
      (0 < (s.calls i).added ∨ 0 < (s.calls i).attaching ∨ 0 < (s.calls i).delaying ∨
        0 < (s.calls i).electing) ∨
      (s.net.mgr i).delayedReplaceCas ∈ (s.calls i).asking ∨
      ∃ c ∈ (s.server i).asked, c.func = (s.net.mgr i).delayedReplaceCas ∧
        c.due = c.since + delaySteps (cfg.replaceDelaySeconds i) ∧
        ((s.server i).fire.length ≤ c.due ∨
          ∃ l, (s.server i).fire[c.due]? = some l ∧ c.func ∈ l)) ∧
    (s.net.mgr i).timers.Perm ((s.calls i).asking ++ (s.server i).pending) := by
  have hs : (s.side i).Inv (cfg.steps i) :=
    run_inv h (inv_init addr partner clock auto usec)
  refine ⟨fun ha hn => ?_, hs.perm⟩
  rcases hs.coming ha hn with hc | hc
  · exact .inl hc
  · right
    rcases List.mem_append.1 (hs.perm.mem_iff.1 hc) with hc | hc
    · exact .inl hc
    · obtain ⟨c, hca, hcf, hc⟩ := hs.due_of_pending hc
      refine .inr ⟨c, hca, hcf, ?_, hcf ▸ hc⟩
      rw [DoAfter.due, hs.steps c hca]
      rfl

/-! ## The time between elections -/

/-- The timer that is called next finds that it is the last. -/
def Passes (s : Delayed) (i : Bool) (k : ℕ) : Prop :=
  ((s.server i).call k).map (·.1) = some (s.net.mgr i).delayedReplaceCas

instance (s : Delayed) (i : Bool) (k : ℕ) : Decidable (s.Passes i k) :=
  inferInstanceAs (Decidable (_ = _))

/-- A `delayed_replace_election` takes a number, or a timer finds that it is the last. -/
def Restarts (s : Delayed) (i : Bool) (a : Act) (t : Delayed) : Prop :=
  (t.net.mgr i).delayedReplaceCas ≠ (s.net.mgr i).delayedReplaceCas ∨
    ∃ k, a = .call i k ∧ s.Passes i k

/-- A number that was called does not wait any more. -/
theorem Side.Inv.not_called {steps : ℕ} {x : Side} (h : x.Inv steps)
    (hlt : x.given.length ≤ 2 ^ 32) {c : ℕ × UInt32} (hc : c ∈ x.server.called) :
    c.2 ∉ x.server.pending := by
  have hnodup := (h.onTime.all.nodup_iff).2 (List.nodup_append.1 (h.numbered.nodup hlt)).1
  exact fun hp => (List.nodup_append.1 hnodup).2.2 _ (List.mem_map_of_mem hc) _ hp rfl

theorem called_of_passes (h : s.step cfg (.call i k) = some t) (hp : s.Passes i k) :
    (k, (s.net.mgr i).delayedReplaceCas) ∈ (t.server i).called := by
  obtain ⟨⟨n, x⟩, hx, hn⟩ := Option.map_eq_some_iff.1 hp
  obtain rfl : n = _ := hn
  obtain ⟨r, hr, hfin⟩ := Option.bind_eq_some_iff.1 h
  obtain rfl : _ = r := Option.some.inj (hx.symm.trans hr)
  obtain ⟨rest, -, rfl⟩ := call_eq hx
  have hside := congrArg Side.server (side_finish hfin).1
  simp only [side, setServer, Function.update_self] at hside
  rw [hside]
  exact List.mem_append_right _ (List.mem_singleton_self _)

/-- The last number was given to `do_after` later than the waiting began anew, if it still waits. -/
theorem since_of_restarts (hs : (s.side i).Inv (cfg.steps i)) (hst : s.step cfg a = some t)
    (hr : s.Restarts i a t) (h' : Run (step cfg) Free t bs u)
    (hlt : (u.side i).given.length ≤ 2 ^ 32) {c : DoAfter UInt32} (hc : c ∈ (u.server i).asked)
    (hcas : c.func = (u.net.mgr i).delayedReplaceCas)
    (hp : (u.net.mgr i).delayedReplaceCas ∈ (u.server i).pending) :
    (s.server i).fire.length ≤ c.since := by
  have ht := step_inv hs hst
  have hu : (u.side i).Inv (cfg.steps i) := run_inv h' ht
  have hst' := (step_moves hst i).grown
  have htu := run_grown i h'
  have hsu := hst'.trans htu
  refine (hsu.asked c hc).resolve_left fun hcs => ?_
  -- the number was given out before, so that it is still the last
  have hmem : UInt32.ofNat (u.side i).given.length ∈ (s.side i).given := by
    rw [← hu.numbered.2]
    exact List.mem_append_left _ (List.mem_map.2 ⟨c, hcs, hcas⟩)
  have hsame := hs.numbered.last hsu.length hlt hmem
  rcases hr with hr | ⟨k, rfl, hpass⟩
  · refine hr (ht.numbered.2.trans (Eq.trans ?_ hs.numbered.2.symm))
    rw [le_antisymm (htu.length.trans hsame.ge) hst'.length]
  · have hlast : (s.net.mgr i).delayedReplaceCas = (u.net.mgr i).delayedReplaceCas :=
      hs.numbered.2.trans ((congrArg UInt32.ofNat hsame).trans hu.numbered.2.symm)
    refine hu.not_called hlt (htu.called _ (called_of_passes hst hpass)) ?_
    rw [hlast]
    exact hp

/-- After a server has come or gone, and after a timer has found that it is the last, none does
until `step_do_after` has gone over the list more often than the delay has steps, as long as the
numbers do not repeat. -/
theorem elections_apart {addr partner : Bool → Address} {clock : Bool → ClockLogic}
    {auto : Bool → Bool} {usec : Bool → UInt64}
    (h : Run (step cfg) Free (init (.init addr partner clock auto) usec) as s)
    (hst : s.step cfg a = some t) (hr : s.Restarts i a t) (h' : Run (step cfg) Free t bs u)
    (hlt : (u.server i).asked.length + (u.calls i).asking.length ≤ 2 ^ 32) (hp : u.Passes i k) :
    (s.server i).fire.length + delaySteps (cfg.replaceDelaySeconds i) <
      (u.server i).fire.length := by
  have hs : (s.side i).Inv (cfg.steps i) :=
    run_inv h (inv_init addr partner clock auto usec)
  have hu : (u.side i).Inv (cfg.steps i) := run_inv h' (step_inv hs hst)
  have hgiven : (u.side i).given.length ≤ 2 ^ 32 := by
    rw [Side.given, List.length_append, List.length_map]
    exact hlt
  obtain ⟨⟨n, x⟩, hx, hn⟩ := Option.map_eq_some_iff.1 hp
  obtain rfl : n = _ := hn
  obtain ⟨rest, hk, -⟩ := call_eq hx
  have hdue : (u.net.mgr i).delayedReplaceCas ∈ (u.server i).dueIn k := by
    have hfired : (u.server i).calledBy k ++ _ = (u.server i).dueIn k := hu.onTime.fired k _ hk
    rw [← hfired]
    exact List.mem_append_right _ List.mem_cons_self
  obtain ⟨c, hcf, hcc⟩ := List.mem_map.1 hdue
  obtain ⟨hca, hcd⟩ := List.mem_filter.1 hcf
  have hsince := since_of_restarts hs hst hr h' hgiven hca hcc
    ((pending_call hx).mem_iff.2 List.mem_cons_self)
  have hsteps := hu.steps c hca
  have hd : c.due = k := of_decide_eq_true hcd
  have hlt : k < (u.server i).fire.length := (List.getElem?_eq_some_iff.1 hk).1
  unfold DoAfter.due at hd
  unfold Config.steps at hsteps
  omega

/-! ## A server that connects -/

section Sample

open Kumofs.Sample

def oneSecond : Config := ⟨zeroHash, fun _ => 1⟩

/-- `delayed_replace_election` is called for a server. -/
def connectRun : List Act :=
  [.connect false (svr 1), .added false]

/-- `do_after` is called, and the list is gone over until its time has come. -/
def waitRun : List Act :=
  [.doAfter false 1, .timerHandler false, .timerStep false 0, .timerStep false 0,
    .stepDoAfter false, .timerHandler false, .timerStep false 0, .timerStep false 0,
    .stepDoAfter false, .timerHandler false, .timerStep false 0, .stepDoAfter false]

theorem election_coming_connect : ∃ s, Run (step oneSecond) Free (init pair fun _ => 1000000)
    (connectRun ++ [.delayedReplaceElection false, .doAfter false 1]) s ∧
    (s.net.mgr false).newServers = [⟨svr 1, false⟩] ∧
    ∃ c ∈ (s.server false).asked, c.func = (s.net.mgr false).delayedReplaceCas ∧
      c.due = c.since + delaySteps (oneSecond.replaceDelaySeconds false) := by
  have h : (Machine.exec (step oneSecond) (init pair fun _ => 1000000)
      (connectRun ++ [.delayedReplaceElection false, .doAfter false 1])).any
      (fun s => decide ((s.net.mgr false).autoReplace ∧
        s.calls false = ⟨0, 0, [], 0, 0, [], 0⟩ ∧
        (s.net.mgr false).newServers = [⟨svr 1, false⟩])) := by
    decide +kernel
  simp only [Option.any_eq_true, decide_eq_true_eq] at h
  obtain ⟨s, hs, hauto, hcalls, hnew⟩ := h
  have hrun : Run (step oneSecond) Free (init pair fun _ => 1000000) _ s := Machine.exec_run hs
  obtain ⟨hc, -⟩ := election_coming hrun false
  rw [hcalls] at hc
  rcases hc hauto (hnew ▸ List.cons_ne_nil _ _) with hc | hc | ⟨c, hca, hcf, hd, -⟩
  · simp at hc
  · exact absurd hc List.not_mem_nil
  · exact ⟨s, hrun, hnew, c, hca, hcf, hd⟩

theorem elections_apart_connect : ∃ s t u,
    Run (step oneSecond) Free (init pair fun _ => 1000000) connectRun s ∧
    s.step oneSecond (.delayedReplaceElection false) = some t ∧
    Run (step oneSecond) Free t waitRun u ∧ u.Passes false 2 ∧
    (s.server false).fire.length + delaySteps (oneSecond.replaceDelaySeconds false) <
      (u.server false).fire.length := by
  have h : (Machine.exec (step oneSecond) (init pair fun _ => 1000000) connectRun).any fun s =>
      (s.step oneSecond (.delayedReplaceElection false)).any fun t =>
        decide ((t.net.mgr false).delayedReplaceCas ≠ (s.net.mgr false).delayedReplaceCas) &&
        (Machine.exec (step oneSecond) t waitRun).any fun u =>
          decide ((u.server false).asked.length + (u.calls false).asking.length ≤ 2 ^ 32 ∧
            u.Passes false 2) := by
    decide +kernel
  simp only [Option.any_eq_true, Bool.and_eq_true, decide_eq_true_eq] at h
  obtain ⟨s, hs, t, ht, hcas, u, hu, hlt, hp⟩ := h
  have hfirst : Run (step oneSecond) Free (init pair fun _ => 1000000) _ s := Machine.exec_run hs
  have hrun : Run (step oneSecond) Free t waitRun u := Machine.exec_run hu
  exact ⟨s, t, u, hfirst, ht, hrun, hp, elections_apart hfirst ht (.inl hcas) hrun hlt hp⟩

end Sample

end Delayed

end Kumofs
