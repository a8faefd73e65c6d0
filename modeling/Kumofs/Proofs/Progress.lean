import Kumofs.Lib.Countdown
import Kumofs.Proofs.Managers
import Kumofs.Sample
import Kumofs.System.ReplaceNet

/-!
# When the phases of a replace end

Of what a manager does, a history keeps what concerns a replace: that one was started, for which
servers, the ends of the phases that servers reported, and that `copying` was invalidated. The copy
phase ends with the report of the last server it was started for, and so does the delete phase,
which has the same servers.
-/

namespace Kumofs

open Countdown

/-! ## A progress record -/

namespace Progress

/-- The record waits for those who are left, if there are any. -/
structure Tracks (p : Progress) (w : Option (Wait ClockTime Address)) : Prop where
  remainder : p.remainder = w.elim [] (·.left)
  record : ∀ w' ∈ w, w'.left ≠ [] → p.clocktime = w'.tag ∧ p.targetNodes = w'.members

variable {p : Progress} {w : Option (Wait ClockTime Address)}

/-- A record of which nobody is left, as it is when it is invalidated. -/
theorem tracks_of_idle (hp : p.remainder = []) (hw : idle w = true) : Tracks p w := by
  cases w with
  | none => exact ⟨hp, by simp⟩
  | some w =>
    have hl : w.left = [] := by simpa [idle] using hw
    refine ⟨hp.trans hl.symm, fun w' hw' hne => ?_⟩
    cases hw'
    exact absurd hl hne

theorem Tracks.remainder_of_idle (h : Tracks p w) (hw : idle w = true) : p.remainder = [] := by
  cases w with
  | none => exact h.remainder
  | some w => exact h.remainder.trans (by simpa [idle] using hw)

theorem pop_fst (p : Progress) (t : ClockTime) (a : Address) :
    (p.pop t a).1.clocktime = p.clocktime ∧ (p.pop t a).1.targetNodes = p.targetNodes := by
  unfold pop
  split_ifs
  · exact ⟨rfl, rfl⟩
  · exact ⟨rfl, rfl⟩
  · exact ⟨rfl, rfl⟩

theorem tracks_reset (t : ClockTime) (nodes : List Address) :
    Tracks (reset t nodes) (some ⟨t, nodes, nodes⟩) := by
  refine ⟨rfl, fun w' hw' _ => ?_⟩
  cases hw'
  exact ⟨rfl, rfl⟩

theorem Tracks.pop (h : Tracks p w) (t : ClockTime) (a : Address) :
    (p.pop t a).2 = completes w (.report t a) ∧ Tracks (p.pop t a).1 (next w (.report t a)) := by
  by_cases hi : idle w = true
  · have hr := h.remainder_of_idle hi
    have hp : p.pop t a = (p, false) := by
      unfold Progress.pop
      split_ifs <;> rfl
    obtain ⟨hn, hc⟩ := idle_next hi (o := .report t a) rfl
    rw [hp]
    exact ⟨hc.symm, tracks_of_idle hr hn⟩
  · cases w with
    | none => exact absurd rfl hi
    | some w =>
      have hl : w.left ≠ [] := by simpa [idle] using hi
      have hr : p.remainder = w.left := h.remainder
      obtain ⟨ht, hm⟩ := h.record w rfl hl
      unfold Progress.pop
      by_cases htag : w.tag = t
      · rw [if_neg (by simp [ht, htag]), if_neg (by rwa [hr]), hr]
        refine ⟨by simp [completes, htag, hl], ?_⟩
        rw [next, Option.map_some, if_pos htag]
        refine ⟨rfl, fun w' hw' _ => ?_⟩
        cases hw'
        exact ⟨ht, hm⟩
      · rw [if_pos (by rwa [ht])]
        refine ⟨by simp [completes, htag], ?_⟩
        rw [next, Option.map_some, if_neg htag]
        exact h

/-- Whose report ends the phase is who it was started for. -/
theorem Tracks.of_completes (h : Tracks p w) {t : ClockTime} {a : Address}
    (hc : completes w (.report t a) = true) :
    ∃ w', w = some w' ∧ p.clocktime = t ∧ w'.tag = t ∧ p.targetNodes = w'.members := by
  obtain ⟨w', rfl, hw⟩ := (Option.any_eq_true _ _).1 hc
  simp only [Bool.and_eq_true, Bool.not_eq_true', decide_eq_true_eq,
    List.isEmpty_eq_false_iff] at hw
  obtain ⟨ht, hm⟩ := h.record w' rfl hw.1.2
  exact ⟨w', rfl, ht.trans hw.1.1, hw.1.1, hm⟩

end Progress

/-! ## The handlers -/

namespace Manager

variable {hash : Bytes → UInt64} {m : Manager} {r : Manager × List Out}

theorem copyStartOf_append (o o' : List Out) : ReplaceNet.copyStartOf (o ++ o') =
    (ReplaceNet.copyStartOf o).or (ReplaceNet.copyStartOf o') := by
  unfold ReplaceNet.copyStartOf Managers.serverMsgs
  rw [List.filterMap_append, List.findSome?_append]

/-- A handler that leaves both records as they are and starts no replace. -/
structure Keeping (m : Manager) (r : Manager × List Out) : Prop where
  copying : r.1.copying = m.copying
  deleting : r.1.deleting = m.deleting
  start : ReplaceNet.copyStartOf r.2 = none

/-- A handler that ends with `start_replace`. -/
structure Restarts (r : Manager × List Out) (dests : List Address) : Prop where
  copying : r.1.copying = .reset r.1.whs.clocktime dests
  deleting : r.1.deleting = .init
  start : ReplaceNet.copyStartOf r.2 = some (dests, r.1.whs.seed)

theorem Keeping.andThen {f : Manager → Manager × List Out} (h : Keeping m r)
    (h' : Keeping r.1 (f r.1)) : Keeping m (andThen r f) := by
  refine ⟨h'.copying.trans h.copying, h'.deleting.trans h.deleting, ?_⟩
  rw [Manager.andThen, copyStartOf_append, h.start, h'.start]
  rfl

theorem Keeping.startReplace (h : Keeping m r) (full : Bool) :
    Restarts (Manager.andThen r (startReplace full)) r.1.nodes := by
  refine ⟨rfl, rfl, ?_⟩
  rw [Manager.andThen, copyStartOf_append, h.start]
  rfl

theorem keeping_nil {m' : Manager} (hc : m'.copying = m.copying) (hd : m'.deleting = m.deleting) :
    Keeping m (m', []) :=
  ⟨hc, hd, rfl⟩

theorem keeping_syncHashSpacePartner : Keeping m m.syncHashSpacePartner := by
  unfold syncHashSpacePartner
  split_ifs
  · exact ⟨rfl, rfl, rfl⟩
  · exact keeping_nil rfl rfl

theorem keeping_attachNewServers : Keeping m (m.attachNewServers hash) := by
  have h := keeping_syncHashSpacePartner (m :=
    { m.clockIncr with whs := attachAll hash m.nextClocktime m.whs m.newServers, newServers := [] })
  exact ⟨h.copying, h.deleting, h.start⟩

theorem keeping_detachFaultServers : Keeping m (m.detachFaultServers hash) := by
  have h := keeping_syncHashSpacePartner (m :=
    { m.clockIncr with whs := (m.whs.removeFaultServers hash m.nextClocktime).1 })
  exact ⟨h.copying, h.deleting, h.start⟩

theorem keeping_attachDetach :
    Keeping m (andThen (m.attachNewServers hash) (detachFaultServers hash)) :=
  keeping_attachNewServers.andThen keeping_detachFaultServers

theorem keeping_delegateReplace : Keeping m m.delegateReplace := ⟨rfl, rfl, rfl⟩

theorem keeping_addServer (a : Address) : Keeping m (m.addServer a, []) := by
  unfold addServer
  simp only []
  split_ifs
  all_goals exact keeping_nil rfl rfl

theorem keeping_publish : Keeping m m.publish := by
  have h := Keeping.andThen (m := { m with rhs := m.whs, finishing := false })
    (r := pushHashSpaceClients { m with rhs := m.whs, finishing := false })
    ⟨rfl, rfl, rfl⟩ keeping_syncHashSpacePartner
  exact ⟨h.copying, h.deleting, h.start⟩

theorem keeping_removeServerLocked (a : Address) (ct : ClockTime) :
    Keeping m (m.removeServerLocked a ct) := by
  have hf : Keeping m (faultServer ct a { m with removing := m.removing.erase (a, ct) }) := by
    unfold faultServer
    simp only []
    split_ifs
    · have h := (keeping_syncHashSpacePartner (m :=
        { m with
          removing := m.removing.erase (a, ct)
          whs := (m.whs.faultServer ct a).1
          rhs := (m.rhs.faultServer ct a).1 })).andThen (f := syncHashSpaceServers)
            ⟨rfl, rfl, rfl⟩ |>.andThen (f := pushHashSpaceClients) ⟨rfl, rfl, rfl⟩
      exact ⟨h.copying, h.deleting, h.start⟩
    · exact keeping_nil rfl rfl
  refine hf.andThen ?_
  simp only []
  split_ifs
  · exact keeping_nil rfl rfl
  · exact keeping_nil rfl rfl

end Manager

namespace Managers

open Manager

variable {hash : Bytes → UInt64} {s t : Managers} {a : Act} {i : Bool}

/-- The end of a phase, or the invalidation of `copying`. -/
def Act.accounts : Act → Bool
  | .copyEnd .. | .deleteEnd .. | .invalidate _ => true
  | _ => false

theorem onElectionResult_records (m : Manager) (call : ℕ) (res : Option Bool) :
    Keeping m (m.onElectionResult call res) ∨
      ∃ dests, Restarts (m.onElectionResult call res) dests := by
  unfold onElectionResult
  simp only []
  split_ifs
  · exact .inr ⟨_, Keeping.startReplace (m := m) (r := ({ m with calls := m.calls.erase call }, []))
      (keeping_nil rfl rfl) false⟩
  · exact .inl (keeping_nil rfl rfl)

theorem handle_records (msg : PartnerMsg) : Keeping (s.mgr i) (s.handle hash i msg) ∨
    ∃ dests, Restarts (s.handle hash i msg) dests := by
  cases msg with
  | hashSpaceSync wseed rseed adjustClock =>
    simp only [handle]
    split_ifs
    · exact .inl (keeping_nil rfl rfl)
    · exact .inl (keeping_nil rfl rfl)
  | replaceElection call hsseed adjustClock =>
    simp only [handle, onReplaceElection]
    split_ifs
    · exact .inl (keeping_nil rfl rfl)
    · exact .inl (keeping_nil rfl rfl)
    · exact .inl (keeping_nil rfl rfl)
    · exact .inl (keeping_nil rfl rfl)
    · exact .inr ⟨_, keeping_attachDetach.startReplace false⟩
  | replaceElectionResult call res =>
    simp only [handle]
    split_ifs
    · exact onElectionResult_records _ call res
    · exact .inl (keeping_nil rfl rfl)

/-- Any other handler leaves the records as they are, or starts a replace. -/
theorem handled_records (hash : Bytes → UInt64) (s : Managers) (ha : a.accounts = false) :
    Keeping (s.mgr a.who) (s.handled hash a) ∨ ∃ dests, Restarts (s.handled hash a) dests := by
  cases a with
  | copyEnd | deleteEnd | invalidate => cases ha
  | fire i cas =>
    simp only [handled, Act.who, casCheckedReplaceElection, replaceElection]
    split_ifs
    · have h := (@keeping_attachDetach hash
        { s.mgr i with timers := (s.mgr i).timers.erase cas }).andThen keeping_delegateReplace
      exact .inl ⟨h.copying, h.deleting, h.start⟩
    · exact .inr ⟨_, keeping_attachDetach.startReplace false⟩
    · exact .inl (keeping_nil rfl rfl)
  | deliver i k =>
    simp only [handled, Act.who]
    cases (s.inbox i)[k]? with
    | none => exact .inl (keeping_nil rfl rfl)
    | some msg => exact handle_records msg
  | electionFailed i call => exact onElectionResult_records _ call none
  | attach i replace =>
    simp only [handled, Act.who, controlAttach]
    split_ifs
    · exact .inr ⟨_, keeping_attachNewServers.startReplace false⟩
    · exact .inl keeping_attachNewServers
  | detach i replace =>
    simp only [handled, Act.who, controlDetach]
    split_ifs
    · exact .inr ⟨_, keeping_detachFaultServers.startReplace false⟩
    · exact .inl keeping_detachFaultServers
  | setAutoReplace i enable =>
    simp only [handled, Act.who, Manager.setAutoReplace]
    split_ifs
    · exact .inl (keeping_nil rfl rfl)
    · have h := @keeping_attachDetach hash { s.mgr i with autoReplace := true }
      exact .inl ⟨h.copying, h.deleting, h.start⟩
    · exact .inl (keeping_nil rfl rfl)
  | startReplace i full =>
    exact .inr ⟨_, Keeping.startReplace (m := s.mgr i) (r := (s.mgr i, []))
      (keeping_nil rfl rfl) full⟩
  | connect i a => exact .inl (keeping_addServer a)
  | removeLocked i a ct => exact .inl (keeping_removeServerLocked a ct)
  | partnerConnected => exact .inl keeping_syncHashSpacePartner
  | publish => exact .inl keeping_publish
  | lost | clockUpdate | keepAlive | time | expire => exact .inl (keeping_nil rfl rfl)

end Managers

/-! ## Histories -/

/-- What a history keeps of a step of a manager. -/
inductive ReplaceEvent
  /-- `start_replace` at this time, with the nodes `ReplaceCopyStart` was sent to. -/
  | started (replaceTime : ClockTime) (nodes : List Address)
  /-- `ReplaceCopyEnd` of a node, and if `finish_replace_copy` ran, its target nodes. -/
  | copyEnded (replaceTime : ClockTime) (a : Address) (targets : Option (List Address))
  /-- `ReplaceDeleteEnd` of a node, and whether `finish_replace` ran. -/
  | deleteEnded (replaceTime : ClockTime) (a : Address) (finished : Bool)
  /-- `remove_server` invalidated `copying`. -/
  | invalidated
  | other
  deriving DecidableEq

namespace ReplaceEvent

def isStarted : ReplaceEvent → Bool
  | .started .. => true
  | _ => false

def finishesCopy : ReplaceEvent → Bool
  | .copyEnded _ _ targets => targets.isSome
  | _ => false

def finishesReplace : ReplaceEvent → Bool
  | .deleteEnded _ _ finished => finished
  | _ => false

/-- What an event is to `copying`. -/
def copyOp : ReplaceEvent → Op ClockTime Address
  | .started t nodes => .start t nodes
  | .copyEnded t a _ => .report t a
  | .invalidated => .stop
  | _ => .skip

/-- What it is to `deleting`. -/
def deleteOp : ReplaceEvent → Op ClockTime Address
  | .started .. => .stop
  | .copyEnded t _ (some nodes) => .start t nodes
  | .deleteEnded t a _ => .report t a
  | _ => .skip

end ReplaceEvent

/-- Node `a` is of these nodes, and the only one that has not sent its message. -/
def LastOf (nodes : List Address) (sent : Address → Prop) (a : Address) : Prop :=
  a ∈ nodes ∧ ¬ sent a ∧ ∀ n ∈ nodes, n = a ∨ sent n

open ReplaceEvent in
/-- A history in which the phases end as they should. -/
structure ReplaceAccounted (h : List ReplaceEvent) : Prop where
  /-- `finish_replace_copy` runs where the last node a replace was started for reports, unless
  another was started or `copying` was invalidated in between. -/
  copyEnd : ∀ pre t a targets post, h = pre ++ .copyEnded t a targets :: post →
    ∀ nodes, targets = some nodes ↔ ∃ before mid, pre = before ++ .started t nodes :: mid ∧
      (∀ e ∈ mid, e.isStarted = false ∧ e ≠ .invalidated) ∧
      LastOf nodes (fun n => ∃ ts, .copyEnded t n ts ∈ mid) a
  copyOnce : ∀ pre t nodes post, h = pre ++ .started t nodes :: post →
    (∀ e ∈ post, e.isStarted = false) →
    post.countP finishesCopy ≤ 1 ∧ (nodes = [] → post.countP finishesCopy = 0)
  /-- `finish_replace` runs where the last of those nodes reports again, unless another replace was
  started in between. -/
  deleteEnd : ∀ pre t a finished post, h = pre ++ .deleteEnded t a finished :: post →
    (finished = true ↔ ∃ before b nodes mid, pre = before ++ .copyEnded t b (some nodes) :: mid ∧
      (∀ e ∈ mid, e.isStarted = false) ∧
      LastOf nodes (fun n => ∃ b, .deleteEnded t n b ∈ mid) a)
  deleteOnce : ∀ pre t b nodes post, h = pre ++ .copyEnded t b (some nodes) :: post →
    (∀ e ∈ post, e.isStarted = false) → post.countP finishesReplace ≤ 1 ∧ nodes ≠ []

namespace Managers

open Manager ReplaceEvent

variable {hash : Bytes → UInt64} {s t : Managers} {a : Act} {i : Bool} {m : Manager}
  {h : List ReplaceEvent}

/-- The target nodes of a `ReplaceDeleteStart` that a handler sends. -/
def deleteStartOf (outs : List Out) : Option (List Address) :=
  (serverMsgs outs).findSome? fun
    | (dests, .replaceDeleteStart ..) => some dests
    | _ => none

/-- What a step is in the history of manager `i`. -/
def event (hash : Bytes → UInt64) (i : Bool) (s : Managers) (a : Act) : ReplaceEvent :=
  if a.who ≠ i then .other
  else
    match a with
    | .copyEnd _ replaceTime _ n =>
      .copyEnded replaceTime n (deleteStartOf (s.handled hash a).2)
    | .deleteEnd _ replaceTime _ n =>
      .deleteEnded replaceTime n ((s.mgr i).deleting.pop replaceTime n).2
    | .invalidate _ => .invalidated
    | _ => (ReplaceNet.copyStartOf (s.handled hash a).2).elim .other fun st =>
      .started st.2.clocktime st.1

/-- The two managers, with the history of manager `i`. -/
def recordStep (hash : Bytes → UInt64) (i : Bool) (x : Managers × List ReplaceEvent) (a : Act) :
    Option (Managers × List ReplaceEvent) :=
  (step hash x.1 a).map (·, x.2 ++ [event hash i x.1 a])

/-- The phases end where nobody is left to wait for, and the delete phase is for the nodes that the
copy phase was for. -/
structure Ends (h : List ReplaceEvent) : Prop where
  copyMarks : Marked copyOp finishesCopy h
  deleteMarks : Marked deleteOp finishesReplace h
  targets : ∀ pre t n nodes post, h = pre ++ .copyEnded t n (some nodes) :: post →
    ∃ w, after copyOp pre = some w ∧ w.tag = t ∧ w.members = nodes

/-- The records of a manager are those of its history. -/
structure Recorded (m : Manager) (h : List ReplaceEvent) : Prop extends Ends h where
  copying : m.copying.Tracks (after copyOp h)
  deleting : m.deleting.Tracks (after deleteOp h)

theorem recorded_init (addr partner : Address) (clock : ClockLogic) (auto : Bool) :
    Recorded (.init addr partner clock auto) [] :=
  ⟨⟨marked_nil, marked_nil, by simp⟩, Progress.tracks_of_idle rfl rfl,
    Progress.tracks_of_idle rfl rfl⟩

/-- A step keeps the records those of the history. -/
theorem Recorded.concat {m' : Manager} {e : ReplaceEvent} (hr : Recorded m h)
    (hc : m'.copying.Tracks (next (after copyOp h) (copyOp e)))
    (hd : m'.deleting.Tracks (next (after deleteOp h) (deleteOp e)))
    (hcm : e.finishesCopy = completes (after copyOp h) (copyOp e))
    (hdm : e.finishesReplace = completes (after deleteOp h) (deleteOp e))
    (ht : ∀ t n nodes, e = .copyEnded t n (some nodes) →
      ∃ w, after copyOp h = some w ∧ w.tag = t ∧ w.members = nodes) : Recorded m' (h ++ [e]) := by
  refine ⟨⟨hr.copyMarks.concat hcm, hr.deleteMarks.concat hdm, ?_⟩, ?_, ?_⟩
  · intro pre t n nodes post heq
    rcases concat_eq_split.1 heq with ⟨rfl, rfl, -⟩ | ⟨post', -, heq⟩
    · exact ht t n nodes rfl
    · exact hr.targets pre t n nodes post' heq
  · rwa [after_concat]
  · rwa [after_concat]

theorem Recorded.other {m' : Manager} (hr : Recorded m h) (hc : m'.copying = m.copying)
    (hd : m'.deleting = m.deleting) : Recorded m' (h ++ [.other]) :=
  hr.concat (hc ▸ hr.copying) (hd ▸ hr.deleting) rfl rfl (by simp)

theorem Recorded.started {r : Manager × List Out} {dests : List Address} (hr : Recorded m h)
    (hs : Restarts r dests) : Recorded r.1 (h ++ [.started r.1.whs.clocktime dests]) := by
  refine hr.concat ?_ ?_ rfl rfl (by simp)
  · rw [hs.copying]
    exact Progress.tracks_reset _ _
  · rw [hs.deleting]
    exact Progress.tracks_of_idle rfl rfl

theorem Recorded.invalidated (hr : Recorded m h) :
    Recorded m.invalidateCopying (h ++ [.invalidated]) :=
  hr.concat (Progress.tracks_of_idle rfl rfl) hr.deleting rfl rfl (by simp)

theorem Recorded.copyEnd (hr : Recorded m h) (replaceTime : ClockTime) (adjustClock : UInt32)
    (n : Address) : Recorded (m.replaceCopyEnd replaceTime adjustClock n).1
      (h ++ [.copyEnded replaceTime n
        (deleteStartOf (m.replaceCopyEnd replaceTime adjustClock n).2)]) := by
  obtain ⟨hmark, htr⟩ := hr.copying.pop replaceTime n
  have hpop : (m.clockUpdate adjustClock).copying.pop replaceTime n = m.copying.pop replaceTime n :=
    rfl
  unfold replaceCopyEnd
  simp only [hpop]
  split_ifs with hp
  · have hc : completes (after copyOp h) (.report replaceTime n) = true := hmark.symm.trans hp
    obtain ⟨w, hw, ht, htag, hmem⟩ := hr.copying.of_completes hc
    obtain ⟨hpt, hpn⟩ := Progress.pop_fst m.copying replaceTime n
    have hsent : deleteStartOf (finishReplaceCopy { m.clockUpdate adjustClock with
        copying := (m.copying.pop replaceTime n).1 }).2 = some m.copying.targetNodes :=
      congrArg some hpn
    rw [hsent]
    refine hr.concat ?_ ?_ hc.symm rfl ?_
    · exact Progress.tracks_of_idle rfl (idle_next_of_completes hc)
    · show Progress.Tracks (.reset (m.copying.pop replaceTime n).1.clocktime
        (m.copying.pop replaceTime n).1.targetNodes) _
      rw [hpt, hpn, ht]
      exact Progress.tracks_reset _ _
    · intro t n' nodes he
      cases he
      exact ⟨w, hw, htag, hmem.symm⟩
  · refine hr.concat htr hr.deleting ?_ rfl (by simp [deleteStartOf, serverMsgs])
    rw [Bool.not_eq_true] at hp
    exact hp.symm.trans hmark

theorem Recorded.deleteEnd (hr : Recorded m h) (replaceTime : ClockTime) (adjustClock : UInt32)
    (n : Address) : Recorded (m.replaceDeleteEnd replaceTime adjustClock n)
      (h ++ [.deleteEnded replaceTime n (m.deleting.pop replaceTime n).2]) := by
  obtain ⟨hmark, htr⟩ := hr.deleting.pop replaceTime n
  refine hr.concat hr.copying ?_ rfl hmark (by simp)
  have hpop : (m.clockUpdate adjustClock).deleting.pop replaceTime n =
    m.deleting.pop replaceTime n := rfl
  simp only [replaceDeleteEnd, hpop]
  split_ifs with hp
  · exact Progress.tracks_of_idle rfl (idle_next_of_completes (hmark.symm.trans hp))
  · exact htr

theorem event_of_not_who (hi : a.who ≠ i) : event hash i s a = .other := if_pos hi

/-- What else a manager does is told by what it sends. -/
theorem event_of_sent (ha : a.accounts = false) : event hash a.who s a =
    (ReplaceNet.copyStartOf (s.handled hash a).2).elim .other fun st =>
      .started st.2.clocktime st.1 := by
  unfold event
  rw [if_neg (fun h => h rfl)]
  cases a with
  | copyEnd | deleteEnd | invalidate => cases ha
  | _ => rfl

theorem recorded_step {s t : Managers} {a : Act} (hr : Recorded (s.mgr i) h)
    (hs : step hash s a = some t) : Recorded (t.mgr i) (h ++ [event hash i s a]) := by
  have hst := stepped_of_step hs
  by_cases hi : a.who ≠ i
  · rw [event_of_not_who hi]
    rw [(who_or a i).resolve_left (Ne.symm hi)] at hr ⊢
    rw [hst.mgrOther]
    exact hr.other rfl rfl
  · obtain rfl := not_not.1 hi
    rw [hst.mgr]
    cases ha : a.accounts with
    | true =>
      unfold event
      rw [if_neg hi]
      cases a with
      | copyEnd j replaceTime adjustClock n => exact hr.copyEnd replaceTime adjustClock n
      | deleteEnd j replaceTime adjustClock n => exact hr.deleteEnd replaceTime adjustClock n
      | invalidate j => exact hr.invalidated
      | _ => cases ha
    | false =>
      rw [event_of_sent ha]
      rcases handled_records hash s ha with hk | ⟨dests, hb⟩
      · rw [hk.start]
        exact hr.other hk.copying hk.deleting
      · rw [hb.start]
        exact hr.started hb

/-! ## What a history shows -/

theorem copyOp_start {e : ReplaceEvent} {t : ClockTime} {nodes : List Address} :
    copyOp e = .start t nodes ↔ e = .started t nodes := by
  cases e <;> simp [copyOp]

theorem copyOp_goesOn {e : ReplaceEvent} :
    (copyOp e).GoesOn ↔ e.isStarted = false ∧ e ≠ .invalidated := by
  cases e <;> simp [copyOp, Op.GoesOn, isStarted]

theorem copyOp_isStart {e : ReplaceEvent} : (copyOp e).isStart = e.isStarted := by
  cases e <;> rfl

theorem copyOp_reports {e : ReplaceEvent} {t : ClockTime} {n : Address} :
    (copyOp e).reports t n = true ↔ ∃ ts, e = .copyEnded t n ts := by
  cases e <;> simp [copyOp, Op.reports]

theorem deleteOp_start {e : ReplaceEvent} {t : ClockTime} {nodes : List Address} :
    deleteOp e = .start t nodes ↔ ∃ b, e = .copyEnded t b (some nodes) := by
  rcases e with _ | ⟨_, _, _ | _⟩ | _ | _ | _ <;> simp [deleteOp]

theorem deleteOp_goesOn {e : ReplaceEvent} :
    (deleteOp e).GoesOn ↔ e.isStarted = false ∧ e.finishesCopy = false := by
  rcases e with _ | ⟨_, _, _ | _⟩ | _ | _ | _ <;>
    simp [deleteOp, Op.GoesOn, isStarted, finishesCopy]

theorem deleteOp_isStart {e : ReplaceEvent} : (deleteOp e).isStart = e.finishesCopy := by
  rcases e with _ | ⟨_, _, _ | _⟩ | _ | _ | _ <;> rfl

theorem deleteOp_reports {e : ReplaceEvent} {t : ClockTime} {n : Address} :
    (deleteOp e).reports t n = true ↔ ∃ b, e = .deleteEnded t n b := by
  rcases e with _ | ⟨_, _, _ | _⟩ | _ | _ | _ <;> simp [deleteOp, Op.reports]

/-- What the library says of the last report, in the words of a history. -/
theorem lastOf_iff {op : ReplaceEvent → Op ClockTime Address} {sent : Address → Prop}
    {mid : List ReplaceEvent} {t : ClockTime} {nodes : List Address} {n : Address}
    (hs : ∀ x, sent x ↔ ∃ y ∈ mid, (op y).reports t x = true) :
    LastOf nodes sent n ↔ n ∈ nodes ∧ (∀ y ∈ mid, (op y).reports t n = false) ∧
      ∀ x ∈ nodes, x = n ∨ ∃ y ∈ mid, (op y).reports t x = true := by
  simp only [LastOf, hs, not_exists, not_and, Bool.not_eq_true]

theorem Ends.left {h' : List ReplaceEvent} (hr : Ends (h ++ h')) : Ends h :=
  ⟨hr.copyMarks.left, hr.deleteMarks.left, fun pre t n nodes post heq =>
    hr.targets pre t n nodes (post ++ h') (by simp [heq])⟩

theorem Ends.copyEnd_iff (hr : Ends h) {pre post : List ReplaceEvent} {t : ClockTime}
    {n : Address} {targets : Option (List Address)} (heq : h = pre ++ .copyEnded t n targets :: post)
    (nodes : List Address) : targets = some nodes ↔
      ∃ before mid, pre = before ++ .started t nodes :: mid ∧
        (∀ e ∈ mid, e.isStarted = false ∧ e ≠ .invalidated) ∧
        LastOf nodes (fun n => ∃ ts, .copyEnded t n ts ∈ mid) n := by
  have hmark : targets.isSome = completes (after copyOp pre) (.report t n) :=
    hr.copyMarks pre _ post heq
  have hsent : ∀ mid : List ReplaceEvent, ∀ x,
      (∃ ts, .copyEnded t x ts ∈ mid) ↔ ∃ y ∈ mid, (copyOp y).reports t x = true := by
    intro mid x
    simp only [copyOp_reports]
    constructor
    · rintro ⟨ts, hy⟩
      exact ⟨_, hy, ts, rfl⟩
    · rintro ⟨y, hy, ts, rfl⟩
      exact ⟨ts, hy⟩
  constructor
  · rintro rfl
    obtain ⟨before, x, mid, members, rfl, hx, hmid, hlast⟩ := completes_iff.1 hmark.symm
    obtain ⟨w, hw, -, hmem⟩ := hr.targets _ t n nodes post heq
    rw [after_of_start hx hmid, Option.some.injEq] at hw
    obtain rfl := copyOp_start.1 hx
    rw [← hw] at hmem
    subst hmem
    exact ⟨before, mid, rfl, fun e he => copyOp_goesOn.1 (hmid e he),
      (lastOf_iff (hsent mid)).2 hlast⟩
  · rintro ⟨before, mid, rfl, hmid, hlast⟩
    have hgo : ∀ y ∈ mid, (copyOp y).GoesOn := fun y hy => copyOp_goesOn.2 (hmid y hy)
    have hstart : copyOp (.started t nodes) = .start t nodes := rfl
    have hc := completes_iff.2 ⟨before, _, mid, nodes, rfl, hstart, hgo,
      (lastOf_iff (hsent mid)).1 hlast⟩
    rw [← hmark, Option.isSome_iff_exists] at hc
    obtain ⟨nodes', rfl⟩ := hc
    obtain ⟨w, hw, -, rfl⟩ := hr.targets _ t n nodes' post heq
    rw [after_of_start hstart hgo, Option.some.injEq] at hw
    rw [← hw]

theorem Ends.copy_once (hr : Ends h) {pre post : List ReplaceEvent} {t : ClockTime}
    {nodes : List Address} (heq : h = pre ++ .started t nodes :: post)
    (hs : ∀ e ∈ post, e.isStarted = false) :
    post.countP finishesCopy ≤ 1 ∧ (nodes = [] → post.countP finishesCopy = 0) := by
  have hm : Marked copyOp finishesCopy (pre ++ [.started t nodes] ++ post) := by
    have := hr.copyMarks
    rw [heq] at this
    simpa using this
  have hs' : ∀ e ∈ post, (copyOp e).isStart = false := fun e he => copyOp_isStart.trans (hs e he)
  refine ⟨hm.countP_le_one hs', fun hnil => hm.countP_of_idle hs' ?_⟩
  rw [after_concat, hnil]
  rfl

/-- No copy phase ends between the end of one and the start of another replace. -/
theorem Ends.copy_none (hr : Ends h) {pre post : List ReplaceEvent} {t : ClockTime}
    {b : Address} {nodes : List Address} (heq : h = pre ++ .copyEnded t b (some nodes) :: post)
    (hs : ∀ e ∈ post, e.isStarted = false) : ∀ e ∈ post, e.finishesCopy = false := by
  obtain ⟨before, mid, rfl, hmid, -⟩ := (hr.copyEnd_iff heq nodes).1 rfl
  have heq' : h = before ++ .started t nodes :: (mid ++ .copyEnded t b (some nodes) :: post) := by
    rw [heq]
    simp
  have hs' : ∀ e ∈ mid ++ .copyEnded t b (some nodes) :: post, e.isStarted = false := by
    intro e he
    rcases List.mem_append.1 he with he | he
    · exact (hmid e he).1
    · rcases List.mem_cons.1 he with rfl | he
      · rfl
      · exact hs e he
  have hone := (hr.copy_once heq' hs').1
  rw [List.countP_append, List.countP_cons_of_pos rfl] at hone
  have h0 : post.countP finishesCopy = 0 := by omega
  intro e he
  simpa using List.countP_eq_zero.1 h0 e he

theorem Ends.deleteEnd_iff (hr : Ends h) {pre post : List ReplaceEvent} {t : ClockTime}
    {n : Address} {finished : Bool} (heq : h = pre ++ .deleteEnded t n finished :: post) :
    finished = true ↔ ∃ before b nodes mid, pre = before ++ .copyEnded t b (some nodes) :: mid ∧
      (∀ e ∈ mid, e.isStarted = false) ∧
      LastOf nodes (fun n => ∃ b, .deleteEnded t n b ∈ mid) n := by
  have hmark : finished = completes (after deleteOp pre) (.report t n) :=
    hr.deleteMarks pre _ post heq
  have hsent : ∀ mid : List ReplaceEvent, ∀ x,
      (∃ b, .deleteEnded t x b ∈ mid) ↔ ∃ y ∈ mid, (deleteOp y).reports t x = true := by
    intro mid x
    simp only [deleteOp_reports]
    constructor
    · rintro ⟨b, hy⟩
      exact ⟨_, hy, b, rfl⟩
    · rintro ⟨y, hy, b, rfl⟩
      exact ⟨b, hy⟩
  rw [hmark, completes_iff]
  constructor
  · rintro ⟨before, x, mid, nodes, rfl, hx, hmid, hlast⟩
    obtain ⟨b, rfl⟩ := deleteOp_start.1 hx
    exact ⟨before, b, nodes, mid, rfl, fun e he => (deleteOp_goesOn.1 (hmid e he)).1,
      (lastOf_iff (hsent mid)).2 hlast⟩
  · rintro ⟨before, b, nodes, mid, rfl, hmid, hlast⟩
    rw [heq] at hr
    have hnone := hr.left.copy_none rfl hmid
    exact ⟨before, _, mid, nodes, rfl, deleteOp_start.2 ⟨b, rfl⟩,
      fun e he => deleteOp_goesOn.2 ⟨hmid e he, hnone e he⟩, (lastOf_iff (hsent mid)).1 hlast⟩

theorem Ends.delete_once (hr : Ends h) {pre post : List ReplaceEvent} {t : ClockTime}
    {b : Address} {nodes : List Address} (heq : h = pre ++ .copyEnded t b (some nodes) :: post)
    (hs : ∀ e ∈ post, e.isStarted = false) : post.countP finishesReplace ≤ 1 ∧ nodes ≠ [] := by
  have hm : Marked deleteOp finishesReplace (pre ++ [.copyEnded t b (some nodes)] ++ post) := by
    have := hr.deleteMarks
    rw [heq] at this
    simpa using this
  refine ⟨hm.countP_le_one fun e he => deleteOp_isStart.trans (hr.copy_none heq hs e he), ?_⟩
  obtain ⟨before, mid, -, -, hlast⟩ := (hr.copyEnd_iff heq nodes).1 rfl
  exact List.ne_nil_of_mem hlast.1

theorem Ends.accounted (hr : Ends h) : ReplaceAccounted h where
  copyEnd _ _ _ _ _ heq := hr.copyEnd_iff heq
  copyOnce _ _ _ _ heq := hr.copy_once heq
  deleteEnd _ _ _ _ _ heq := hr.deleteEnd_iff heq
  deleteOnce _ _ _ _ _ heq := hr.delete_once heq

/-- In every run of the managers the history of each is accounted for. -/
theorem replaceAccounted_of_run {addr partner : Bool → Address} {clock : Bool → ClockLogic}
    {auto : Bool → Bool} {as : List Act}
    (hrun : Machine.Run (recordStep hash i) Machine.Free (init addr partner clock auto, []) as
      (s, h)) : ReplaceAccounted h := by
  have hrec : Recorded (s.mgr i) h := by
    refine hrun.inv (I := fun x => Recorded (x.1.mgr i) x.2) (fun x a y hx _ hs => ?_)
      (recorded_init _ _ _ _)
    obtain ⟨t, hst, rfl⟩ := Option.map_eq_some_iff.1 hs
    exact recorded_step hx hst
  exact hrec.toEnds.accounted

/-! A replace for two servers, of which the second reports the end of its copy twice. -/

section Sample

open Sample

def replaceRun : List Act :=
  [.connect false (svr 1), .connect false (svr 2), .attach false true,
    .copyEnd false (.mk' 1 1000) 5 (svr 2), .copyEnd false (.mk' 1 1000) 5 (svr 2),
    .copyEnd false (.mk' 1 1000) 5 (svr 1), .publish false,
    .deleteEnd false (.mk' 1 1000) 5 (svr 1), .deleteEnd false (.mk' 1 1000) 5 (svr 2)]

def replaceHistory : List ReplaceEvent :=
  [.other, .other, .started (.mk' 1 1000) [svr 1, svr 2],
    .copyEnded (.mk' 1 1000) (svr 2) none, .copyEnded (.mk' 1 1000) (svr 2) none,
    .copyEnded (.mk' 1 1000) (svr 1) (some [svr 1, svr 2]), .other,
    .deleteEnded (.mk' 1 1000) (svr 1) false, .deleteEnded (.mk' 1 1000) (svr 2) true]

theorem replaceRun_history : ((Machine.exec (recordStep zeroHash false) (pair, []) replaceRun).any
    fun r => r.2 = replaceHistory) = true := by
  decide +kernel

theorem replaceAccounted_replaceRun : ∃ s,
    Machine.Run (recordStep zeroHash false) Machine.Free (pair, []) replaceRun
      (s, replaceHistory) ∧ ReplaceAccounted replaceHistory := by
  obtain ⟨⟨s, h⟩, hs, hh⟩ := (Option.any_eq_true _ _).1 replaceRun_history
  have hrun := Machine.exec_run hs
  rw [show h = replaceHistory from of_decide_eq_true hh] at hrun
  exact ⟨s, hrun, replaceAccounted_of_run hrun⟩

end Sample

end Managers

end Kumofs
