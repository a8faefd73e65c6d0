import Kumofs.Proofs.Manager
import Kumofs.Sample

/-!
# What a replace publishes

`finish_replace_copy` publishes the `whs` of the moment as the new `rhs`. It is the one that was
copied, or less, if no step between the start and the end of the copy makes a server active in
`whs` that was not active in the `Seed` sent at the start. Handlers that attach servers start a
replace of their own, but an election that is delegated, `AttachNewServers` without `replace` and
a partner's `HashSpaceSync` do not.
-/

namespace Kumofs

namespace Manager

variable {m : Manager} {hash : Bytes → UInt64} {new : List Address}

/-- A copy phase has begun and its end is not published yet. -/
def CopyUnderWay (m : Manager) : Prop := m.copying.remainder ≠ [] ∨ m.finishing = true

instance : Decidable m.CopyUnderWay := inferInstanceAs (Decidable (_ ∨ _))

/-- A handler that starts no replace makes no server active in `whs` but those of `new`. -/
structure Keeps (new : List Address) (m : Manager) (r : Manager × List Out) : Prop where
  starts : copyStarts r.2 = []
  underWay : r.1.CopyUnderWay → m.CopyUnderWay
  active : ∀ b ∈ r.1.whs.getActiveNodes, b ∈ m.whs.getActiveNodes ∨ b ∈ new

theorem Keeps.andThen {r : Manager × List Out} {f : Manager → Manager × List Out}
    (h : Keeps new m r) (h' : Keeps new r.1 (f r.1)) : Keeps new m (andThen r f) where
  starts := by simp only [Manager.andThen, copyStarts_append, h.starts, h'.starts, List.append_nil]
  underWay hu := h.underWay (h'.underWay hu)
  active b hb := (h'.active b hb).elim (h.active b) .inr

theorem keeps_of_eq {m' : Manager} (hw : m'.whs = m.whs) (hu : m'.CopyUnderWay → m.CopyUnderWay) :
    Keeps new m (m', []) :=
  ⟨rfl, hu, fun _ hb => .inl (hw ▸ hb)⟩

theorem keeps_syncHashSpacePartner : Keeps new m m.syncHashSpacePartner := by
  obtain ⟨c, hc⟩ := syncHashSpacePartner_eq (m := m)
  refine ⟨syncHashSpacePartner_copyStarts, fun h => ?_, fun b hb => .inl ?_⟩
  · rwa [hc] at h
  · rwa [hc] at hb

theorem keeps_attachNewServers : Keeps m.liveNewServers m (attachNewServers hash m) := by
  obtain ⟨c, hc⟩ := attachNewServers_eq hash m
  refine ⟨syncHashSpacePartner_copyStarts, fun h => ?_, fun b hb => ?_⟩
  · rwa [hc] at h
  · rw [hc] at hb
    exact attachAll_active hb

theorem keeps_detachFaultServers : Keeps new m (detachFaultServers hash m) := by
  obtain ⟨c, hc⟩ := detachFaultServers_eq hash m
  refine ⟨syncHashSpacePartner_copyStarts, fun h => ?_, fun b hb => .inl ?_⟩
  · rwa [hc] at h
  · rw [hc] at hb
    exact HashSpace.removeFaultServers_active hb

theorem keeps_attachDetach (hash : Bytes → UInt64) (m : Manager) : Keeps m.liveNewServers m
    (Manager.andThen (attachNewServers hash m) (detachFaultServers hash)) :=
  keeps_attachNewServers.andThen keeps_detachFaultServers

theorem keeps_delegateReplace : Keeps new m (delegateReplace m) :=
  ⟨rfl, id, fun _ => .inl⟩

theorem keeps_faultServer {ct : ClockTime} {a : Address} : Keeps new m (faultServer ct a m) := by
  obtain ⟨c, hc⟩ := faultServer_eq ct a m
  refine ⟨faultServer_copyStarts, fun h => ?_, fun b hb => .inl ?_⟩
  · rwa [hc] at h
  · rw [hc] at hb
    exact HashSpace.faultServer_active hb

theorem keeps_removeServerLocked {ct : ClockTime} {a : Address} :
    Keeps new m (removeServerLocked a ct m) := by
  have h : Keeps new m (faultServer ct a { m with removing := m.removing.erase (a, ct) }) :=
    let k := keeps_faultServer (m := { m with removing := m.removing.erase (a, ct) })
    ⟨k.starts, k.underWay, k.active⟩
  refine h.andThen ?_
  simp only []
  split_ifs
  · exact keeps_of_eq rfl id
  · exact keeps_of_eq rfl id

theorem keeps_addServer {a : Address} : Keeps new m (m.addServer a, []) := by
  unfold addServer
  simp only []
  split_ifs
  all_goals exact keeps_of_eq rfl id

/-- The remainder is only emptied by the pop that finishes the copy phase. -/
theorem keeps_replaceCopyEnd {replaceTime : ClockTime} {adjustClock : UInt32} {a : Address} :
    Keeps new m (replaceCopyEnd replaceTime adjustClock a m) := by
  have hpop : (m.copying.pop replaceTime a).1.remainder ≠ [] ∨
      (m.copying.pop replaceTime a).2 = true → m.copying.remainder ≠ [] := by
    unfold Progress.pop
    split_ifs with h1 h2
    · simp
    · simp [h2]
    · exact fun _ => h2
  unfold replaceCopyEnd
  simp only []
  split_ifs with hp
  · exact ⟨rfl, fun _ => .inl (hpop (.inr hp)), fun _ => .inl⟩
  · refine ⟨rfl, ?_, fun _ => .inl⟩
    rintro (h | h)
    · exact .inl (hpop (.inl h))
    · exact .inr h

theorem keeps_publish : Keeps new m m.publish := by
  refine Keeps.andThen (r := pushHashSpaceClients { m with rhs := m.whs, finishing := false })
    ⟨rfl, fun h => ?_, fun _ => .inl⟩ keeps_syncHashSpacePartner
  rcases h with h | h
  · exact .inl h
  · cases h

/-- The servers that a hash space from the partner makes active in `whs`, if it is taken. -/
def adopts (wseed : Seed) (m : Manager) : List Address :=
  if !wseed.empty && (m.whs.empty || m.whs.clocktime ≤ wseed.clocktime) then wseed.getActiveNodes
  else []

theorem keeps_hashSpaceSync {wseed rseed : Seed} {adjustClock : UInt32} :
    Keeps (m.adopts wseed) m (m.hashSpaceSync hash wseed rseed adjustClock, []) := by
  refine ⟨rfl, id, fun b hb => ?_⟩
  have hw : (m.hashSpaceSync hash wseed rseed adjustClock).whs =
      if !wseed.empty && (m.whs.empty || m.whs.clocktime ≤ wseed.clocktime) then
        .ofSeed hash wseed
      else m.whs := rfl
  simp only [hw] at hb
  unfold adopts
  by_cases h : !wseed.empty && (m.whs.empty || m.whs.clocktime ≤ wseed.clocktime)
  · rw [if_pos h] at hb ⊢
    exact .inr hb
  · rw [if_neg h] at hb
    exact .inl hb

theorem startReplace_copyStarts {full : Bool} :
    copyStarts (startReplace full m).2 = [m.whs.seed] := rfl

end Manager

namespace Managers

variable {hash : Bytes → UInt64} {s t : Managers} {i j : Bool} {a : Act}

/-- The manager of a step that starts no replace, and the servers that it makes active in `whs`. -/
def brings (s : Managers) : Act → Option (Bool × List Address)
  | .attach i false => some (i, (s.mgr i).liveNewServers)
  | .setAutoReplace i true =>
    if (s.mgr i).autoReplace then none else some (i, (s.mgr i).liveNewServers)
  | .fire i cas =>
    if (s.mgr i).delayedReplaceCas = cas ∧ (s.mgr i).partner.connectable ∧
        (s.mgr i).partner < (s.mgr i).addr then
      some (i, (s.mgr i).liveNewServers)
    else none
  | .deliver i k =>
    match (s.inbox i)[k]? with
    | some (.hashSpaceSync wseed _ _) => some (i, (s.mgr i).adopts wseed)
    | _ => none
  | _ => none

/-- While a copy phase is under way, no step makes a server active in `whs` that was not active in
the hash space sent at its start. -/
def BringsCopied (s : Managers) (a : Act) : Prop :=
  ∀ x ∈ s.brings a, (s.mgr x.1).CopyUnderWay →
    ∀ c ∈ s.lastCopy x.1, ∀ b ∈ x.2, b ∈ c.getActiveNodes

instance : Decidable (BringsCopied s a) :=
  inferInstanceAs (Decidable (∀ x ∈ s.brings a, _ → ∀ c ∈ s.lastCopy x.1, ∀ b ∈ x.2, _))

/-- The servers active in `whs` are among those the copy phase under way was started with. -/
def Covers (s : Managers) (i : Bool) : Prop :=
  (s.mgr i).CopyUnderWay →
    ∃ c, s.lastCopy i = some c ∧ ∀ b ∈ (s.mgr i).whs.getActiveNodes, b ∈ c.getActiveNodes

theorem finish_lastCopy {r : Manager × List Out} (h : s.finish i r = some t) :
    t.lastCopy i = (copyStarts r.2).head?.or (s.lastCopy i) := by
  unfold lastCopy copyStarts
  rw [(finish_eq h).2.2, Function.update_self, List.findSome?_append, List.head?_filterMap]

theorem finish_lastCopy_ne {r : Manager × List Out} (h : s.finish i r = some t) (hj : j ≠ i) :
    t.lastCopy j = s.lastCopy j := by
  unfold lastCopy
  rw [(finish_eq h).2.2, Function.update_of_ne hj]

theorem finish_covers_ne {r : Manager × List Out} (hs : s.Covers j) (h : s.finish i r = some t)
    (hj : j ≠ i) : t.Covers j := by
  unfold Covers
  rw [finish_mgr_ne h hj, finish_lastCopy_ne h hj]
  exact hs

theorem finish_covers_keeps {r : Manager × List Out} {new : List Address} (hs : ∀ j, s.Covers j)
    (hr : (s.mgr i).Keeps new r)
    (hnew : (s.mgr i).CopyUnderWay → ∀ c ∈ s.lastCopy i, ∀ b ∈ new, b ∈ c.getActiveNodes)
    (h : s.finish i r = some t) (j : Bool) : t.Covers j := by
  by_cases hj : j = i
  · subst hj
    intro hu
    rw [finish_mgr h] at hu ⊢
    rw [finish_lastCopy h, hr.starts]
    obtain ⟨c, hc, hcov⟩ := hs j (hr.underWay hu)
    refine ⟨c, hc, fun b hb => ?_⟩
    exact (hr.active b hb).elim (hcov b) (hnew (hr.underWay hu) c hc b)
  · exact finish_covers_ne (hs j) h hj

theorem finish_covers_none {r : Manager × List Out} (hs : ∀ j, s.Covers j)
    (h : s.finish i r = some t) (hr : (s.mgr i).Keeps [] r) (j : Bool) : t.Covers j :=
  finish_covers_keeps hs hr (by simp) h j

/-- A handler that does not touch `whs`. -/
theorem finish_covers_same {m : Manager} (hs : ∀ j, s.Covers j) (h : s.finish i (m, []) = some t)
    (hw : m.whs = (s.mgr i).whs) (hu : m.CopyUnderWay → (s.mgr i).CopyUnderWay) (j : Bool) :
    t.Covers j :=
  finish_covers_none hs h (Manager.keeps_of_eq hw hu) j

/-- A start of a replace sends the `whs` of the moment. -/
theorem finish_covers_starts {r : Manager × List Out} {full : Bool} (hs : ∀ j, s.Covers j)
    (h : s.finish i (Manager.andThen r (Manager.startReplace full)) = some t) (j : Bool) :
    t.Covers j := by
  by_cases hj : j = i
  · subst hj
    intro _
    refine ⟨r.1.whs.seed, ?_, fun b hb => ?_⟩
    · rw [finish_lastCopy h]
      simp only [Manager.andThen, copyStarts_append, Manager.startReplace_copyStarts]
      rfl
    · rw [finish_mgr h] at hb
      exact hb
  · exact finish_covers_ne (hs j) h hj

theorem startReplace_eq_andThen {m : Manager} {full : Bool} :
    m.startReplace full = Manager.andThen (m, []) (Manager.startReplace full) := rfl

theorem answer_covers {call : ℕ} {res : Option (Option Bool)} :
    (s.answer i call res).Covers j ↔ s.Covers j := by
  cases res <;> exact Iff.rfl

theorem finish_covers_onElectionResult {call : ℕ} {res : Option Bool} (hs : ∀ j, s.Covers j)
    (h : s.finish i ((s.mgr i).onElectionResult call res) = some t) (j : Bool) : t.Covers j := by
  unfold Manager.onElectionResult at h
  simp only [] at h
  by_cases hres : res = none
  · rw [if_pos hres, startReplace_eq_andThen] at h
    exact finish_covers_starts hs h j
  · rw [if_neg hres] at h
    exact finish_covers_same hs h rfl id j

theorem receive_covers {msg : PartnerMsg} (hs : ∀ j, s.Covers j)
    (hg : ∀ wseed rseed adjustClock, msg = .hashSpaceSync wseed rseed adjustClock →
      (s.mgr i).CopyUnderWay →
      ∀ c ∈ s.lastCopy i, ∀ b ∈ (s.mgr i).adopts wseed, b ∈ c.getActiveNodes)
    (h : receive hash s i msg = some t) (j : Bool) : t.Covers j := by
  cases msg with
  | hashSpaceSync wseed rseed adjustClock =>
    simp only [receive] at h
    split_ifs at h
    · cases h
      exact hs j
    · exact finish_covers_keeps hs Manager.keeps_hashSpaceSync (hg _ _ _ rfl) h j
  | replaceElection call hsseed adjustClock =>
    simp only [receive] at h
    split_ifs at h
    · cases h
      exact answer_covers.2 (hs j)
    · obtain ⟨u, hu, rfl⟩ := Option.map_eq_some_iff.1 h
      refine answer_covers.2 ?_
      unfold Manager.onReplaceElection at hu
      simp only [] at hu
      split_ifs at hu
      · exact finish_covers_same hs hu rfl id j
      · exact finish_covers_same hs hu rfl id j
      · exact finish_covers_same hs hu rfl id j
      · exact finish_covers_starts hs hu j
  | replaceElectionResult call res =>
    simp only [receive] at h
    split_ifs at h
    · exact finish_covers_onElectionResult hs h j
    · cases h
      exact hs j

theorem step_covers (hs : ∀ j, s.Covers j) (hg : BringsCopied s a) (h : step hash s a = some t)
    (j : Bool) : t.Covers j := by
  cases a with
  | connect i a => exact finish_covers_none hs h Manager.keeps_addServer j
  | lost i a => exact finish_covers_same hs h rfl id j
  | removeLocked i a ct =>
    simp only [step] at h
    split_ifs at h
    exact finish_covers_none hs h Manager.keeps_removeServerLocked j
  | invalidate i =>
    simp only [step] at h
    split_ifs at h
    refine finish_covers_same hs h rfl ?_ j
    rintro (h | h)
    · exact absurd rfl h
    · exact .inr h
  | fire i cas =>
    simp only [step] at h
    split_ifs at h with htimer
    unfold Manager.casCheckedReplaceElection Manager.replaceElection at h
    simp only [] at h
    split_ifs at h with hcas hdel
    · have hk := (Manager.keeps_attachDetach hash
        { s.mgr i with timers := (s.mgr i).timers.erase cas }).andThen
          (f := Manager.delegateReplace) Manager.keeps_delegateReplace
      have hk : (s.mgr i).Keeps (s.mgr i).liveNewServers _ := ⟨hk.starts, hk.underWay, hk.active⟩
      refine finish_covers_keeps hs hk ?_ h j
      exact hg (i, (s.mgr i).liveNewServers) (by simp [brings, hcas, hdel])
    · exact finish_covers_starts hs h j
    · exact finish_covers_same hs h rfl id j
  | partnerConnected i => exact finish_covers_none hs h Manager.keeps_syncHashSpacePartner j
  | deliver i k =>
    obtain ⟨msg, hmsg, h⟩ := Option.bind_eq_some_iff.1 h
    refine receive_covers (s := { s with
      inbox := Function.update s.inbox i ((s.inbox i).eraseIdx k) }) hs ?_ h j
    rintro wseed rseed adjustClock rfl
    exact hg (i, (s.mgr i).adopts wseed) (by simp [brings, hmsg])
  | electionFailed i call =>
    simp only [step] at h
    split_ifs at h
    exact finish_covers_onElectionResult hs h j
  | attach i replace =>
    cases replace with
    | false =>
      refine finish_covers_keeps hs Manager.keeps_attachNewServers ?_ h j
      exact hg (i, (s.mgr i).liveNewServers) (by simp [brings])
    | true => exact finish_covers_starts hs h j
  | detach i replace =>
    cases replace with
    | false => exact finish_covers_none hs h Manager.keeps_detachFaultServers j
    | true => exact finish_covers_starts hs h j
  | setAutoReplace i enable =>
    simp only [step, Manager.setAutoReplace] at h
    split_ifs at h with h1 h2
    · exact finish_covers_same hs h rfl id j
    · simp only [Bool.and_eq_true, Bool.not_eq_true'] at h2
      obtain ⟨ha, rfl⟩ := h2
      have hk := Manager.keeps_attachDetach hash { s.mgr i with autoReplace := true }
      have hk : (s.mgr i).Keeps (s.mgr i).liveNewServers _ := ⟨hk.starts, hk.underWay, hk.active⟩
      refine finish_covers_keeps hs hk ?_ h j
      exact hg (i, (s.mgr i).liveNewServers) (by simp [brings, ha])
    · exact finish_covers_same hs h rfl id j
  | startReplace i full => exact finish_covers_starts (r := (s.mgr i, [])) hs h j
  | copyEnd i replaceTime adjustClock b =>
    simp only [step] at h
    split_ifs at h
    exact finish_covers_none hs h Manager.keeps_replaceCopyEnd j
  | publish i =>
    simp only [step] at h
    split_ifs at h
    exact finish_covers_none hs h Manager.keeps_publish j
  | deleteEnd i replaceTime adjustClock b =>
    simp only [step] at h
    split_ifs at h
    exact finish_covers_same hs h rfl id j
  | clockUpdate i c => exact finish_covers_same hs h rfl id j
  | keepAlive i => exact finish_covers_same hs h rfl id j
  | time i t => exact finish_covers_same hs h rfl id j
  | expire i k => exact finish_covers_same hs h rfl id j

/-! ## Runs -/

/-- Every server that a publication makes readable was in the hash space copied before it. -/
def PublishesCopied (s : Managers) (i : Bool) : Prop :=
  ∀ b ∈ (s.mgr i).whs.getActiveNodes, b ∉ (s.mgr i).rhs.getActiveNodes →
    ∃ c ∈ s.lastCopy i, b ∈ c.getActiveNodes

theorem publishesCopied_of_run {addr partner : Bool → Address} {clock : Bool → ClockLogic}
    {auto : Bool → Bool} {as : List Act}
    (h : Machine.Run (step hash) BringsCopied (init addr partner clock auto) as s)
    (hp : step hash s (.publish i) = some t) :
    (t.mgr i).rhs = (s.mgr i).whs ∧ s.PublishesCopied i := by
  have hs : ∀ j, s.Covers j := by
    refine h.inv (I := fun s => ∀ j, s.Covers j) (fun _ _ _ hs hg ht => step_covers hs hg ht) ?_
    rintro j (hu | hu)
    · exact absurd rfl hu
    · cases hu
  simp only [step] at hp
  split_ifs at hp with hf
  refine ⟨?_, fun b hb _ => ?_⟩
  · rw [finish_mgr hp]
    exact Manager.publish_rhs
  · obtain ⟨c, hc, hcov⟩ := hs i (.inr hf)
    exact ⟨c, hc, hcov b hb⟩

/-! The first manager copies to the first server. The second server connects to the second
manager; in one run after the copy, in the other while it is under way, and then the second
manager's election attaches it, hands the replace over and sends the first manager the new `whs`. -/

section Sample

open Sample

def copyRun : List Act :=
  [.connect false (svr 1), .fire false 1, .copyEnd false (.mk' 1 1000) 5 (svr 1)]

theorem publishesCopied_copyRun : ∃ s t,
    Machine.Run (step zeroHash) BringsCopied pair copyRun s ∧
      step zeroHash s (.publish false) = some t ∧
      svr 1 ∈ (s.mgr false).whs.getActiveNodes ∧ svr 1 ∉ (s.mgr false).rhs.getActiveNodes ∧
      (t.mgr false).rhs = (s.mgr false).whs ∧ s.PublishesCopied false := by
  have h : Machine.Run (step zeroHash) BringsCopied pair copyRun _ := Machine.execIf_run rfl
  exact ⟨_, _, h, rfl, by decide, by decide, publishesCopied_of_run h rfl⟩

def syncedRun : List Act :=
  [.connect false (svr 1), .fire false 1, .connect true (svr 2), .deliver true 0, .fire true 1,
    .deliver false 0, .copyEnd false (.mk' 1 1000) 5 (svr 1)]

theorem not_publishesCopied_syncedRun : ∃ s t,
    Machine.Run (step zeroHash) Machine.Free pair syncedRun s ∧
      step zeroHash s (.publish false) = some t ∧ ¬ s.PublishesCopied false := by
  refine ⟨_, _, Machine.exec_run rfl, rfl, ?_⟩
  unfold PublishesCopied
  intro h
  obtain ⟨c, hc, hb⟩ := h (svr 2) (by decide) (by decide)
  rw [show c = seedOf [1] (.mk' 1 1000) from (Option.some.inj hc).symm] at hb
  exact absurd hb (by decide)

end Sample

end Managers

end Kumofs
