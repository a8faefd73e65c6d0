import Kumofs.Proofs.Manager
import Kumofs.System.ReplaceNet

/-!
# What a delete task goes by

The delete phase is sent off once every server the copy was sent to has reported its end. Its tasks
delete by the hash space of that copy if the manager's `whs` is still the one it sent for the copy
when it sends the delete phase off, and a server's `whs` is the one its delete task was sent when
the task runs. The code checks neither.
-/

namespace Kumofs

/-- A message that only brings hash spaces. -/
def ServerMsg.isSync : ServerMsg → Bool
  | .hashSpaceSync .. => true
  | _ => false

namespace Manager

open Managers

variable {hash : Bytes → UInt64} {m : Manager} {r : Manager × List Out}

/-- A handler that sends servers nothing but hash spaces, and at most ends the copy phase. -/
structure Quietly (m : Manager) (r : Manager × List Out) : Prop where
  msgs : ∀ d ∈ serverMsgs r.2, d.2.isSync = true
  copying : r.1.copying = m.copying ∨ r.1.copying = .init

/-- A handler that ends with `start_replace`. -/
structure Begins (r : Manager × List Out) (dests : List Address) : Prop where
  msgs : ∀ d ∈ serverMsgs r.2, d.2.isSync = true ∨
    d.1 = dests ∧ ∃ c full, d.2 = .replaceCopyStart r.1.whs.seed c full
  start : ReplaceNet.copyStartOf r.2 = some (dests, r.1.whs.seed)
  copying : r.1.copying = .reset r.1.whs.clocktime dests

theorem serverMsgs_append (o o' : List Out) :
    serverMsgs (o ++ o') = serverMsgs o ++ serverMsgs o' := by
  simp [serverMsgs]

theorem Quietly.andThen {f : Manager → Manager × List Out} (h : Quietly m r)
    (h' : Quietly r.1 (f r.1)) : Quietly m (andThen r f) where
  msgs d hd := by
    rw [Manager.andThen, serverMsgs_append, List.mem_append] at hd
    exact hd.elim (h.msgs d) (h'.msgs d)
  copying := h'.copying.elim (fun he => h.copying.imp he.trans he.trans) .inr

theorem Quietly.copyStartOf (h : Quietly m r) : ReplaceNet.copyStartOf r.2 = none := by
  unfold ReplaceNet.copyStartOf
  rw [List.findSome?_eq_none_iff]
  rintro ⟨dests, msg⟩ hd
  have := h.msgs _ hd
  cases msg with
  | hashSpaceSync => rfl
  | replaceCopyStart => cases this
  | replaceDeleteStart => cases this

theorem quietly_of_eq {m' : Manager} (h : m'.copying = m.copying) : Quietly m (m', []) :=
  ⟨fun _ hd => absurd hd List.not_mem_nil, .inl h⟩

theorem quietly_syncHashSpacePartner : Quietly m m.syncHashSpacePartner := by
  unfold syncHashSpacePartner
  split_ifs
  · exact ⟨fun _ hd => absurd hd List.not_mem_nil, .inl rfl⟩
  · exact quietly_of_eq rfl

theorem quietly_attachNewServers : Quietly m (attachNewServers hash m) :=
  let h := quietly_syncHashSpacePartner (m := { m.clockIncr with
    whs := attachAll hash m.nextClocktime m.whs m.newServers, newServers := [] })
  ⟨h.msgs, h.copying⟩

theorem quietly_detachFaultServers : Quietly m (detachFaultServers hash m) :=
  let h := quietly_syncHashSpacePartner (m := { m.clockIncr with
    whs := (m.whs.removeFaultServers hash m.nextClocktime).1 })
  ⟨h.msgs, h.copying⟩

theorem quietly_delegateReplace : Quietly m (delegateReplace m) :=
  ⟨fun _ hd => absurd hd List.not_mem_nil, .inl rfl⟩

theorem quietly_attachDetach (hash : Bytes → UInt64) (m : Manager) : Quietly m
    (Manager.andThen (attachNewServers hash m) (detachFaultServers hash)) :=
  quietly_attachNewServers.andThen quietly_detachFaultServers

theorem quietly_syncHashSpaceServers : Quietly m m.syncHashSpaceServers := by
  refine ⟨fun d hd => ?_, .inl rfl⟩
  simp only [syncHashSpaceServers, serverMsgs, List.filterMap_cons, List.filterMap_nil,
    List.mem_singleton] at hd
  rw [hd]
  rfl

theorem quietly_pushHashSpaceClients : Quietly m m.pushHashSpaceClients :=
  ⟨fun _ hd => absurd hd List.not_mem_nil, .inl rfl⟩

theorem quietly_faultServer (ct : ClockTime) (a : Address) (m : Manager) :
    Quietly m (faultServer ct a m) := by
  unfold faultServer
  simp only []
  split_ifs
  · have h := (quietly_syncHashSpacePartner (m := { m with
      whs := (m.whs.faultServer ct a).1, rhs := (m.rhs.faultServer ct a).1 })).andThen
        (f := syncHashSpaceServers) quietly_syncHashSpaceServers |>.andThen
        (f := pushHashSpaceClients) quietly_pushHashSpaceClients
    exact ⟨h.msgs, h.copying⟩
  · exact quietly_of_eq rfl

theorem quietly_removeServerLocked {ct : ClockTime} {a : Address} :
    Quietly m (removeServerLocked a ct m) := by
  have h := quietly_faultServer ct a { m with removing := m.removing.erase (a, ct) }
  refine Quietly.andThen ⟨h.msgs, h.copying⟩ ?_
  simp only []
  split_ifs
  · exact quietly_of_eq rfl
  · exact quietly_of_eq rfl

theorem quietly_addServer {a : Address} : Quietly m (m.addServer a, []) := by
  unfold addServer
  simp only []
  split_ifs
  all_goals exact quietly_of_eq rfl

theorem quietly_publish : Quietly m m.publish :=
  Quietly.andThen (r := pushHashSpaceClients { m with rhs := m.whs, finishing := false })
    ⟨fun _ hd => absurd hd List.not_mem_nil, .inl rfl⟩ quietly_syncHashSpacePartner

theorem begins_startReplace {full : Bool} (h : Quietly m r) :
    Begins (andThen r (startReplace full)) r.1.nodes := by
  have hmsgs : serverMsgs (andThen r (startReplace full)).2 = serverMsgs r.2 ++
      [(r.1.nodes, .replaceCopyStart r.1.whs.seed r.1.clock.clockIncr.1 full)] := by
    rw [Manager.andThen, serverMsgs_append]
    rfl
  refine ⟨fun d hd => ?_, ?_, rfl⟩
  · rw [hmsgs, List.mem_append, List.mem_singleton] at hd
    rcases hd with hd | rfl
    · exact .inl (h.msgs d hd)
    · exact .inr ⟨rfl, _, _, rfl⟩
  · have hnone := h.copyStartOf
    unfold ReplaceNet.copyStartOf at hnone ⊢
    rw [hmsgs, List.findSome?_append, hnone]
    rfl

/-- `ReplaceCopyEnd` takes its sender from the remainder, and the last one ends the copy phase. -/
theorem replaceCopyEnd_cases (replaceTime : ClockTime) (adjustClock : UInt32) (a : Address)
    (m : Manager) :
    (m.copying.pop replaceTime a).2 = false ∧
      (m.replaceCopyEnd replaceTime adjustClock a).1.copying = (m.copying.pop replaceTime a).1 ∧
      (m.replaceCopyEnd replaceTime adjustClock a).1.finishing = m.finishing ∧
      (m.replaceCopyEnd replaceTime adjustClock a).2 = [] ∨
    (m.copying.pop replaceTime a).2 = true ∧
      (m.replaceCopyEnd replaceTime adjustClock a).1.copying = .init ∧
      (m.replaceCopyEnd replaceTime adjustClock a).1.finishing = true ∧
      ∀ d ∈ serverMsgs (m.replaceCopyEnd replaceTime adjustClock a).2,
        ∃ c, d.2 = .replaceDeleteStart m.whs.seed c := by
  unfold replaceCopyEnd
  simp only []
  split_ifs with hp
  · refine .inr ⟨hp, rfl, rfl, fun d hd => ?_⟩
    simp only [finishReplaceCopy, serverMsgs, List.filterMap_cons, List.filterMap_nil,
      List.mem_singleton] at hd
    exact ⟨_, congrArg Prod.snd hd⟩
  · exact .inl ⟨Bool.eq_false_of_not_eq_true hp, rfl, rfl, rfl⟩

end Manager

theorem Progress.pop_cases (p : Progress) (replaceTime : ClockTime) (a : Address) :
    p.pop replaceTime a = (p, false) ∨
    p.clocktime = replaceTime ∧ p.remainder ≠ [] ∧ p.pop replaceTime a =
      ({ p with remainder := p.remainder.filter (· ≠ a) },
        (p.remainder.filter (· ≠ a)).isEmpty) := by
  unfold pop
  split_ifs with ht hr
  · exact .inl rfl
  · exact .inl rfl
  · exact .inr ⟨not_not.1 ht, hr, rfl⟩

namespace ReplaceNet

variable {hash : Bytes → UInt64}

/-! ## The manager's steps -/

open Manager in
/-- A handler sends servers hash spaces only, or starts a replace. -/
theorem handle_cases {m : Manager} {a : MgrAct} {r : Manager × List Out}
    (h : handle hash m a = some r) : Quietly m r ∨ ∃ dests, Begins r dests := by
  cases a with
  | connect a =>
    cases h
    exact .inl quietly_addServer
  | removeLocked a ct =>
    simp only [handle] at h
    split_ifs at h
    cases h
    exact .inl quietly_removeServerLocked
  | invalidate =>
    simp only [handle] at h
    split_ifs at h
    cases h
    exact .inl ⟨fun _ hd => absurd hd List.not_mem_nil, .inr rfl⟩
  | fire cas =>
    simp only [handle, casCheckedReplaceElection, replaceElection] at h
    split_ifs at h
    · cases h
      have hq := (quietly_attachDetach hash
        { m with timers := m.timers.erase cas }).andThen
          (f := delegateReplace) quietly_delegateReplace
      exact .inl ⟨hq.msgs, hq.copying⟩
    · cases h
      exact .inr ⟨_, begins_startReplace (quietly_attachDetach hash _)⟩
    · cases h
      exact .inl (quietly_of_eq rfl)
  | electionFailed call =>
    simp only [handle, onElectionResult] at h
    split_ifs at h
    cases h
    exact .inr ⟨_, begins_startReplace (m := m) (r := ({ m with calls := m.calls.erase call }, []))
      (quietly_of_eq rfl)⟩
  | attach replace =>
    simp only [handle, controlAttach] at h
    split_ifs at h
    · cases h
      exact .inr ⟨_, begins_startReplace quietly_attachNewServers⟩
    · cases h
      exact .inl quietly_attachNewServers
  | detach replace =>
    simp only [handle, controlDetach] at h
    split_ifs at h
    · cases h
      exact .inr ⟨_, begins_startReplace quietly_detachFaultServers⟩
    · cases h
      exact .inl quietly_detachFaultServers
  | setAutoReplace enable =>
    simp only [handle, setAutoReplace] at h
    split_ifs at h
    · cases h
      exact .inl (quietly_of_eq rfl)
    · cases h
      have hq := quietly_attachDetach hash { m with autoReplace := true }
      exact .inl ⟨hq.msgs, hq.copying⟩
    · cases h
      exact .inl (quietly_of_eq rfl)
  | startReplace full =>
    cases h
    exact .inr ⟨_, begins_startReplace (r := (m, [])) (quietly_of_eq (m := m) rfl)⟩
  | publish =>
    simp only [handle] at h
    split_ifs at h
    cases h
    exact .inl quietly_publish
  | deleteEnd replaceTime adjustClock a =>
    simp only [handle] at h
    split_ifs at h
    cases h
    exact .inl (quietly_of_eq rfl)
  | lost | clockUpdate | keepAlive | time | expire =>
    cases h
    exact .inl (quietly_of_eq rfl)

/-- What a handler sends, message by message. -/
def addressed (outs : List Out) : List (Address × ServerMsg) :=
  (Managers.serverMsgs outs).flatMap fun d => d.1.map (·, d.2)

theorem mem_addressed {outs : List Out} {d : Address × ServerMsg} (h : d ∈ addressed outs) :
    ∃ dests, d.1 ∈ dests ∧ (dests, d.2) ∈ Managers.serverMsgs outs := by
  obtain ⟨e, he, hd⟩ := List.mem_flatMap.1 h
  obtain ⟨a, ha, rfl⟩ := List.mem_map.1 hd
  exact ⟨e.1, ha, he⟩

theorem manager_step {s t : ReplaceNet} {a : MgrAct} (h : step hash s (.manager a) = some t) :
    ∃ r, handle hash s.mgr a = some r ∧
      (s.mgr.Quietly r ∧ t = { s with mgr := r.1, wire := s.wire ++ addressed r.2 } ∨
        ∃ dests, Manager.Begins r dests ∧ t =
          { s with
            mgr := r.1
            wire := s.wire ++ addressed r.2
            starts := ⟨r.1.whs.seed, r.1.rhs.seed, dests⟩ :: s.starts
            ended := false }) := by
  obtain ⟨r, hr, h⟩ := Option.bind_eq_some_iff.1 h
  refine ⟨r, hr, ?_⟩
  unfold send at h
  rcases handle_cases hr with hq | ⟨dests, hb⟩
  · rw [hq.copyStartOf] at h
    exact .inl ⟨hq, (Option.some.inj h).symm⟩
  · rw [hb.start] at h
    simp only [] at h
    split_ifs at h
    exact .inr ⟨dests, hb, (Option.some.inj h).symm⟩

/-! ## Who has reported -/

/-- Every server a copy was sent to has reported its end. -/
def Reported (s : ReplaceNet) (st : Start) : Prop :=
  ∀ a ∈ st.dests, (a, st.wseed.clocktime) ∈ s.reported

/-- A hash space whose copy phase every server has reported the end of. -/
def CopyReported (hash : Bytes → UInt64) (s : ReplaceNet) (hs : HashSpace) : Prop :=
  ∃ st ∈ s.starts, hs = .ofSeed hash st.wseed ∧ s.Reported st

instance (s : ReplaceNet) (st : Start) : Decidable (s.Reported st) :=
  inferInstanceAs (Decidable (∀ a ∈ st.dests, _ ∈ _))

/-- The delete phase is sent off for the hash space the copy was started for, and a delete task
runs under the hash space it was sent. -/
def Matched (s : ReplaceNet) : Act → Prop
  | .copyEnd k _ => ∀ r ∈ s.reports[k]?, (s.mgr.copying.pop r.2 r.1).2 = true →
    ∀ st ∈ s.starts.head?, s.mgr.whs.seed = st.wseed
  | .delete k _ => ∀ d ∈ s.deletes[k]?, (s.srv d.1).whs = d.2
  | _ => True

instance (s : ReplaceNet) : ∀ a, Decidable (s.Matched a)
  | .copyEnd k _ => inferInstanceAs (Decidable (∀ r ∈ s.reports[k]?,
      (s.mgr.copying.pop r.2 r.1).2 = true → ∀ st ∈ s.starts.head?, s.mgr.whs.seed = st.wseed))
  | .delete k _ => inferInstanceAs (Decidable (∀ d ∈ s.deletes[k]?, (s.srv d.1).whs = d.2))
  | .manager _ | .receive _ | .begin .. | .switch .. | .scan .. | .skip .. | .offer ..
  | .resume .. | .scanEnd .. | .finish .. | .accept .. | .pop .. | .timeout .. =>
    inferInstanceAs (Decidable True)

/-- The copy phase under way is that of the last replace, and who is not in its remainder has
reported; what is sent off to delete by has been reported by all. -/
structure Told (hash : Bytes → UInt64) (s : ReplaceNet) : Prop where
  copying : s.mgr.copying.remainder ≠ [] → ∃ st ∈ s.starts.head?,
    s.mgr.copying.clocktime = st.wseed.clocktime ∧ s.ended = false ∧
      ∀ a ∈ st.dests, a ∉ s.mgr.copying.remainder → (a, st.wseed.clocktime) ∈ s.reported
  wire : ∀ d ∈ s.wire, ∀ seed c, d.2 = .replaceDeleteStart seed c →
    s.CopyReported hash (.ofSeed hash seed)
  deletes : ∀ d ∈ s.deletes, s.CopyReported hash d.2

variable {s t : ReplaceNet}

theorem CopyReported.mono {hs : HashSpace} (h : s.CopyReported hash hs)
    (hst : ∀ st ∈ s.starts, st ∈ t.starts) (hr : ∀ r ∈ s.reported, r ∈ t.reported) :
    t.CopyReported hash hs := by
  obtain ⟨st, hmem, hhs, hrep⟩ := h
  exact ⟨st, hst st hmem, hhs, fun a ha => hr _ (hrep a ha)⟩

/-- All but the servers and their reports is the same. -/
structure Aside (s t : ReplaceNet) : Prop where
  mgr : t.mgr = s.mgr
  wire : t.wire = s.wire
  deletes : t.deletes = s.deletes
  starts : t.starts = s.starts
  ended : t.ended = s.ended
  reported : t.reported = s.reported

theorem Told.aside (h : s.Told hash) (ha : Aside s t) : t.Told hash := by
  have hrep : ∀ {hs}, s.CopyReported hash hs → t.CopyReported hash hs := fun hc =>
    hc.mono (fun st => ha.starts ▸ id) (fun r => ha.reported ▸ id)
  refine ⟨?_, fun d hd seed c he => hrep (h.wire d (ha.wire ▸ hd) seed c he),
    fun d hd => hrep (h.deletes d (ha.deletes ▸ hd))⟩
  rw [ha.mgr, ha.starts, ha.ended, ha.reported]
  exact h.copying

theorem copy_aside {n : Address} {a : Server.Copier.Act (List Server.Offer)} {jobs : List Job}
    (h : s.copy n a jobs = some t) : Aside s t := by
  obtain ⟨c, -, rfl⟩ := Option.map_eq_some_iff.1 h
  exact ⟨rfl, rfl, rfl, rfl, rfl, rfl⟩

theorem Told.manager (h : s.Told hash) {a : MgrAct} (hs : step hash s (.manager a) = some t) :
    t.Told hash := by
  obtain ⟨r, -, ⟨hq, rfl⟩ | ⟨dests, hb, rfl⟩⟩ := manager_step hs
  · refine ⟨fun hne => ?_, fun d hd seed c he => ?_, h.deletes⟩
    · rcases hq.copying with hc | hc
      · simp only [hc] at hne ⊢
        exact h.copying hne
      · exact absurd (congrArg Progress.remainder hc) hne
    · rcases List.mem_append.1 hd with hd | hd
      · exact h.wire d hd seed c he
      · obtain ⟨dests, -, hmem⟩ := mem_addressed hd
        have := hq.msgs _ hmem
        rw [he] at this
        cases this
  · have hmono : ∀ {hs}, s.CopyReported hash hs → CopyReported hash _ hs := fun hc =>
      hc.mono (t := { s with
        mgr := r.1
        wire := s.wire ++ addressed r.2
        starts := ⟨r.1.whs.seed, r.1.rhs.seed, dests⟩ :: s.starts
        ended := false }) (fun _ => List.mem_cons_of_mem _) (fun _ => id)
    refine ⟨fun _ => ⟨_, rfl, ?_, rfl, fun a ha hna => ?_⟩, fun d hd seed c he => ?_,
      fun d hd => hmono (h.deletes d hd)⟩
    · simp only [hb.copying]
      rfl
    · simp only [hb.copying] at hna
      exact absurd ha hna
    · rcases List.mem_append.1 hd with hd | hd
      · exact hmono (h.wire d hd seed c he)
      · obtain ⟨dests, -, hmem⟩ := mem_addressed hd
        rcases hb.msgs _ hmem with hm | ⟨-, c, full, hm⟩
        · rw [he] at hm
          cases hm
        · rw [he] at hm
          cases hm

/-- Who is not in the remainder after a pop has reported. -/
theorem Told.popped (h : s.Told hash) {r : Address × ClockTime}
    (ht : s.mgr.copying.clocktime = r.2) (hne : s.mgr.copying.remainder ≠ []) :
    ∃ st ∈ s.starts.head?, s.mgr.copying.clocktime = st.wseed.clocktime ∧ s.ended = false ∧
      ∀ a ∈ st.dests, a ∉ s.mgr.copying.remainder.filter (· ≠ r.1) →
        (a, st.wseed.clocktime) ∈ r :: s.reported := by
  obtain ⟨st, hst, hct, he, hrep⟩ := h.copying hne
  refine ⟨st, hst, hct, he, fun a ha hna => ?_⟩
  by_cases hr : a = r.1
  · rw [hr, ← hct, ht]
    exact List.mem_cons_self
  · refine List.mem_cons_of_mem _ (hrep a ha fun hmem => hna ?_)
    exact List.mem_filter.2 ⟨hmem, by simpa using hr⟩

/-- The pop that ends a copy phase is the last server's. -/
theorem Told.reported_of_pop (h : s.Told hash) {r : Address × ClockTime}
    (hp : (s.mgr.copying.pop r.2 r.1).2 = true) : s.ended = false ∧ ∃ st ∈ s.starts.head?,
      ∀ a ∈ st.dests, (a, st.wseed.clocktime) ∈ r :: s.reported := by
  rcases s.mgr.copying.pop_cases r.2 r.1 with hc | ⟨ht, hne, hc⟩
  · rw [hc] at hp
    cases hp
  · obtain ⟨st, hst, -, he, hrep⟩ := h.popped ht hne
    refine ⟨he, st, hst, fun a ha => hrep a ha ?_⟩
    rw [hc] at hp
    rw [List.isEmpty_iff.1 hp]
    exact List.not_mem_nil

theorem Told.copyEnd (h : s.Told hash) {k : ℕ} {adjustClock : UInt32}
    (hg : s.Matched (.copyEnd k adjustClock))
    (hs : step hash s (.copyEnd k adjustClock) = some t) : t.Told hash := by
  simp only [step] at hs
  split_ifs at hs with hfin
  obtain ⟨r, hr, rfl⟩ := Option.map_eq_some_iff.1 hs
  have hfin := Bool.eq_false_of_not_eq_true hfin
  rcases Manager.replaceCopyEnd_cases r.2 adjustClock r.1 s.mgr with
    ⟨-, hc, hf, ho⟩ | ⟨hp, hc, hf, ho⟩
  · refine ⟨fun hne => ?_, fun d hd seed c he => ?_,
      fun d hd => (h.deletes d hd).mono (fun _ => id) (fun _ => List.mem_cons_of_mem _)⟩
    · simp only [hc] at hne ⊢
      simp only [hf, hfin, Bool.or_false]
      rcases s.mgr.copying.pop_cases r.2 r.1 with hpop | ⟨ht, hrem, hpop⟩
      · rw [hpop] at hne ⊢
        obtain ⟨st, hst, hct, he, hrep⟩ := h.copying hne
        exact ⟨st, hst, hct, he, fun a ha hna => List.mem_cons_of_mem _ (hrep a ha hna)⟩
      · rw [hpop]
        exact h.popped ht hrem
    · rw [ho] at hd
      refine (h.wire d ?_ seed c he).mono (fun _ => id) (fun _ => List.mem_cons_of_mem _)
      simpa [Managers.serverMsgs] using hd
  · refine ⟨fun hne => ?_, fun d hd seed c he => ?_,
      fun d hd => (h.deletes d hd).mono (fun _ => id) (fun _ => List.mem_cons_of_mem _)⟩
    · exact absurd (congrArg Progress.remainder hc) hne
    · rcases List.mem_append.1 hd with hd | hd
      · exact (h.wire d hd seed c he).mono (fun _ => id) (fun _ => List.mem_cons_of_mem _)
      · obtain ⟨dests, -, hmem⟩ := mem_addressed hd
        obtain ⟨c', hd2⟩ := ho _ hmem
        obtain ⟨-, st, hst, hrep⟩ := h.reported_of_pop hp
        refine ⟨st, List.mem_of_mem_head? hst, ?_, hrep⟩
        have hseed := hg r hr hp st hst
        rw [he] at hd2
        cases hd2
        rw [hseed]

theorem Told.receive (h : s.Told hash) {k : ℕ} (hs : step hash s (.receive k) = some t) :
    t.Told hash := by
  obtain ⟨d, hd, rfl⟩ := Option.map_eq_some_iff.1 hs
  have hw : Told hash { s with wire := s.wire.eraseIdx k } :=
    ⟨h.copying, fun e he => h.wire e (List.mem_of_mem_eraseIdx he), h.deletes⟩
  obtain ⟨n, msg⟩ := d
  cases msg with
  | hashSpaceSync => exact hw.aside ⟨rfl, rfl, rfl, rfl, rfl, rfl⟩
  | replaceCopyStart => exact hw.aside ⟨rfl, rfl, rfl, rfl, rfl, rfl⟩
  | replaceDeleteStart hsseed c =>
    refine ⟨hw.copying, hw.wire, fun e he => ?_⟩
    rcases List.mem_append.1 he with he | he
    · exact h.deletes e he
    · rw [List.mem_singleton.1 he]
      exact h.wire _ (List.mem_of_getElem? hd) hsseed c rfl

/-- The steps of the servers' copies leave the rest as it is. -/
theorem step_aside {a : Act} (hs : step hash s a = some t) :
    Aside s t ∨ (∃ b, a = .manager b) ∨ (∃ k c, a = .copyEnd k c) ∨ (∃ k, a = .receive k) ∨
      ∃ k now, a = .delete k now := by
  cases a with
  | manager b => exact .inr (.inl ⟨b, rfl⟩)
  | copyEnd k c => exact .inr (.inr (.inl ⟨k, c, rfl⟩))
  | receive k => exact .inr (.inr (.inr (.inl ⟨k, rfl⟩)))
  | delete k now => exact .inr (.inr (.inr (.inr ⟨k, now, rfl⟩)))
  | begin | resume | finish | pop | timeout => exact .inl (copy_aside hs)
  | switch n k =>
    obtain ⟨job, -, hs⟩ := Option.bind_eq_some_iff.1 hs
    split_ifs at hs
    cases hs
    exact .inl ⟨rfl, rfl, rfl, rfl, rfl, rfl⟩
  | scan n k now =>
    obtain ⟨job, -, hs⟩ := Option.bind_eq_some_iff.1 hs
    split_ifs at hs
    obtain ⟨r, -, rfl⟩ := Option.map_eq_some_iff.1 hs
    exact .inl ⟨rfl, rfl, rfl, rfl, rfl, rfl⟩
  | skip n k =>
    obtain ⟨job, -, hs⟩ := Option.bind_eq_some_iff.1 hs
    split_ifs at hs
    have ha := copy_aside hs
    exact .inl ⟨ha.mgr, ha.wire, ha.deletes, ha.starts, ha.ended, ha.reported⟩
  | offer n k m =>
    obtain ⟨job, -, hs⟩ := Option.bind_eq_some_iff.1 hs
    obtain ⟨records, -, hs⟩ := Option.bind_eq_some_iff.1 hs
    exact .inl (copy_aside hs)
  | scanEnd n k =>
    obtain ⟨job, -, hs⟩ := Option.bind_eq_some_iff.1 hs
    obtain ⟨records, -, hs⟩ := Option.bind_eq_some_iff.1 hs
    exact .inl (copy_aside hs)
  | accept n a =>
    obtain ⟨st, -, hs⟩ := Option.bind_eq_some_iff.1 hs
    have ha := copy_aside hs
    exact .inl ⟨ha.mgr, ha.wire, ha.deletes, ha.starts, ha.ended, ha.reported⟩

theorem step_told {a : Act} (h : s.Told hash) (hg : s.Matched a) (hs : step hash s a = some t) :
    t.Told hash := by
  rcases step_aside hs with ha | ⟨b, rfl⟩ | ⟨k, c, rfl⟩ | ⟨k, rfl⟩ | ⟨k, now, rfl⟩
  · exact h.aside ha
  · exact h.manager hs
  · exact h.copyEnd hg hs
  · exact h.receive hs
  · obtain ⟨d, hd, rfl⟩ := Option.map_eq_some_iff.1 hs
    exact ⟨h.copying, h.wire, fun e he => h.deletes e (List.mem_of_mem_eraseIdx he)⟩

theorem init_told {mgr : Manager} {whs rhs : Address → HashSpace} {storage : Address → Storage}
    (hm : mgr.copying.remainder = []) : (init mgr whs rhs storage).Told hash :=
  ⟨fun hne => absurd hm hne, fun _ hd => absurd hd List.not_mem_nil,
    fun _ hd => absurd hd List.not_mem_nil⟩

/-- A delete task that runs under the hash space it was sent goes by one that is reported. -/
theorem Told.delete (h : s.Told hash) {k : ℕ} {now : ClockTime} (hg : s.Matched (.delete k now))
    {d : Address × HashSpace} (hd : s.deletes[k]? = some d) :
    s.CopyReported hash (s.srv d.1).whs := by
  rw [hg d hd]
  exact h.deletes d (List.mem_of_getElem? hd)

end ReplaceNet

end Kumofs
