import Kumofs.Proofs.Manager
import Kumofs.Sample
import Mathlib.Data.Set.Insert

/-!
# What equal clocktimes say

The hash spaces of both managers and those on their way between them agree wherever their
clocktimes do, as long as every stamp is new and no server is lost whose fault leaves a manager's
two hash spaces different: then `remove_server` gives both the same clocktime.
-/

namespace Kumofs

/-- Hash spaces of one clocktime have the same nodes. -/
def Coherent (S : Set Seed) : Prop :=
  ∀ x ∈ S, ∀ y ∈ S, x.clocktime = y.clocktime → x.nodes = y.nodes

variable {S T : Set Seed} {hash : Bytes → UInt64}

theorem Coherent.mono (h : Coherent T) (hST : S ⊆ T) : Coherent S :=
  fun x hx y hy => h x (hST hx) y (hST hy)

theorem Coherent.insert {z : Seed} (h : Coherent S)
    (hz : z ∈ S ∨ ∀ x ∈ S, x.clocktime ≠ z.clocktime) : Coherent (insert z S) := by
  rcases hz with hz | hz
  · rwa [Set.insert_eq_of_mem hz]
  · rintro x (rfl | hx) y (rfl | hy) hxy
    · rfl
    · exact absurd hxy.symm (hz y hy)
    · exact absurd hxy (hz x hx)
    · exact h x hx y hy hxy

/-! ## One manager -/

namespace Manager

variable {m : Manager}

/-- A handler leaves the manager with hash spaces of `S`, and sends no others. -/
structure Sends (S : Set Seed) (r : Manager × List Out) : Prop where
  held : ∀ x ∈ r.1.seeds, x ∈ S
  sent : ∀ x ∈ outSeeds r.2, x ∈ S

theorem Sends.mono {r : Manager × List Out} (h : Sends S r) (hST : S ⊆ T) : Sends T r :=
  ⟨fun x hx => hST (h.held x hx), fun x hx => hST (h.sent x hx)⟩

theorem Sends.andThen {r : Manager × List Out} {f : Manager → Manager × List Out}
    (h : Sends S r) (h' : Sends S (f r.1)) : Sends S (andThen r f) := by
  refine ⟨h'.held, fun x hx => ?_⟩
  simp only [Manager.andThen, outSeeds_append, List.mem_append] at hx
  exact hx.elim (h.sent x) (h'.sent x)

theorem sends_of_seeds {m' : Manager} (hm : ∀ x ∈ m.seeds, x ∈ S) (h : m'.seeds = m.seeds) :
    Sends S (m', []) :=
  ⟨fun x hx => hm x (h ▸ hx), by simp [outSeeds, Managers.partnerMsgs]⟩

theorem sends_syncHashSpacePartner (hm : ∀ x ∈ m.seeds, x ∈ S) :
    Sends S m.syncHashSpacePartner := by
  obtain ⟨c, hc⟩ := syncHashSpacePartner_eq (m := m)
  refine ⟨fun x hx => hm x ?_, fun x hx => hm x (syncHashSpacePartner_outSeeds hx)⟩
  rwa [hc] at hx

theorem sends_startReplace (hm : ∀ x ∈ m.seeds, x ∈ S) (full : Bool) :
    Sends S (startReplace full m) :=
  ⟨hm, by simp [startReplace, Manager.andThen, pushHashSpaceClients, outSeeds, Managers.partnerMsgs]⟩

theorem sends_delegateReplace (hm : ∀ x ∈ m.seeds, x ∈ S) : Sends S (delegateReplace m) :=
  ⟨hm, by simp [delegateReplace, outSeeds, Managers.partnerMsgs, PartnerMsg.seeds]⟩

/-- The clocktime with which `attach_new_servers` stamps `whs`, if it changes it. -/
def attachStamps (hash : Bytes → UInt64) (m : Manager) : List ClockTime :=
  if (attachAll hash m.nextClocktime m.whs m.newServers).seed = m.whs.seed then []
  else [m.nextClocktime]

/-- The clocktime with which `detach_fault_servers` stamps `whs`, if it changes it. -/
def detachStamps (hash : Bytes → UInt64) (ct : ClockTime) (whs : HashSpace) : List ClockTime :=
  if (whs.removeFaultServers hash ct).1.seed = whs.seed then [] else [ct]

theorem eq_of_mem_attachStamps {ct : ClockTime} (h : ct ∈ m.attachStamps hash) :
    ct = m.nextClocktime := by
  unfold attachStamps at h
  split_ifs at h
  · cases h
  · exact List.mem_singleton.1 h

theorem eq_of_mem_detachStamps {ct ct' : ClockTime} {whs : HashSpace}
    (h : ct' ∈ detachStamps hash ct whs) : ct' = ct := by
  unfold detachStamps at h
  split_ifs at h
  · cases h
  · exact List.mem_singleton.1 h

/-- What `attach_new_servers` makes of `whs` is what it was, or bears the new stamp. -/
theorem sends_attachNewServers (hash : Bytes → UInt64) (hm : ∀ x ∈ m.seeds, x ∈ S) :
    ∃ z : Seed, (z ∈ S ∨ z.clocktime ∈ m.attachStamps hash) ∧
      Sends (insert z S) (attachNewServers hash m) := by
  refine ⟨(attachAll hash m.nextClocktime m.whs m.newServers).seed, ?_, ?_⟩
  · unfold attachStamps
    split_ifs with hsame
    · rw [hsame]
      exact .inl (hm _ (by simp [seeds]))
    · rcases attachAll_cases hash m.nextClocktime m.newServers m.whs with h | h
      · rw [h] at hsame
        exact absurd rfl hsame
      · exact .inr (List.mem_singleton.2 h)
  · refine sends_syncHashSpacePartner fun x hx => ?_
    simp only [seeds, List.mem_cons, List.not_mem_nil, or_false] at hx
    rcases hx with rfl | rfl
    · exact Set.mem_insert _ _
    · exact Set.mem_insert_of_mem _ (hm _ (by simp [seeds, clockIncr]))

theorem sends_detachFaultServers (hash : Bytes → UInt64) (hm : ∀ x ∈ m.seeds, x ∈ S) :
    ∃ z : Seed, (z ∈ S ∨ z.clocktime ∈ detachStamps hash m.nextClocktime m.whs) ∧
      Sends (insert z S) (detachFaultServers hash m) := by
  refine ⟨(m.whs.removeFaultServers hash m.nextClocktime).1.seed, ?_, ?_⟩
  · unfold detachStamps
    split_ifs with hsame
    · rw [hsame]
      exact .inl (hm _ (by simp [seeds]))
    · rcases HashSpace.removeFaultServers_cases hash m.whs m.nextClocktime with h | h
      · rw [h] at hsame
        exact absurd rfl hsame
      · exact .inr (List.mem_singleton.2 h)
  · refine sends_syncHashSpacePartner fun x hx => ?_
    simp only [seeds, List.mem_cons, List.not_mem_nil, or_false] at hx
    rcases hx with rfl | rfl
    · exact Set.mem_insert _ _
    · exact Set.mem_insert_of_mem _ (hm _ (by simp [seeds, clockIncr]))

/-- The clocktimes with which `attach_new_servers` and then `detach_fault_servers` stamp `whs`. -/
def attachDetachStamps (hash : Bytes → UInt64) (m : Manager) : List ClockTime :=
  m.attachStamps hash ++ detachStamps hash (attachNewServers hash m).1.nextClocktime
    (attachAll hash m.nextClocktime m.whs m.newServers)

theorem attachNewServers_nextClocktime : (attachNewServers hash m).1.nextClocktime =
    .mk' (m.clock.clock + if m.partner.connectable then 2 else 1) m.clock.time := by
  unfold attachNewServers syncHashSpacePartner
  split_ifs with h1 h2 h2
  · show ClockTime.mk' (m.clock.clock + 1 + 1) _ = _
    rw [UInt32.add_assoc]
    rfl
  · exact absurd h1 h2
  · exact absurd h2 h1
  · rfl

theorem attachDetachStamps_congr {m' : Manager} (hc : m.clock = m'.clock)
    (hp : m.partner = m'.partner) (hw : m.whs = m'.whs) (hn : m.newServers = m'.newServers) :
    m.attachDetachStamps hash = m'.attachDetachStamps hash := by
  unfold attachDetachStamps attachStamps
  rw [attachNewServers_nextClocktime, attachNewServers_nextClocktime, hp]
  unfold nextClocktime
  rw [hc, hw, hn]

theorem attachNewServers_nextClocktime_ne :
    (attachNewServers hash m).1.nextClocktime ≠ m.nextClocktime := by
  intro h
  rw [attachNewServers_nextClocktime] at h
  have h := congrArg (UInt32.toBitVec ∘ ClockTime.clock) h
  simp only [Function.comp_apply, nextClocktime, ClockLogic.clockIncrClocktime,
    ClockTime.clock_mk', UInt32.toBitVec_add] at h
  split_ifs at h
  · simp only [UInt32.toBitVec_ofNat] at h
    bv_omega
  · simp only [UInt32.toBitVec_ofNat] at h
    bv_omega

theorem attachNewServers_whs :
    (attachNewServers hash m).1.whs = attachAll hash m.nextClocktime m.whs m.newServers := by
  obtain ⟨c, hc⟩ := attachNewServers_eq hash m
  rw [hc]

theorem coherent_attachDetach (hS : Coherent S) (hm : ∀ x ∈ m.seeds, x ∈ S)
    (hf : ∀ ct ∈ attachDetachStamps hash m, ∀ x ∈ S, x.clocktime ≠ ct) :
    ∃ T, Coherent T ∧ S ⊆ T ∧
      Sends T (andThen (attachNewServers hash m) (detachFaultServers hash)) := by
  obtain ⟨z, hz, h1⟩ := sends_attachNewServers hash hm
  have hSz : Coherent (insert z S) :=
    hS.insert (hz.imp_right fun hz => hf _ (List.mem_append_left _ hz))
  obtain ⟨w, hw, h2⟩ := sends_detachFaultServers hash h1.held
  rw [attachNewServers_whs] at hw
  refine ⟨insert w (insert z S), hSz.insert (hw.imp_right fun hstamp => ?_),
    fun x hx => Set.mem_insert_of_mem _ (Set.mem_insert_of_mem _ hx),
    (h1.mono (Set.subset_insert _ _)).andThen h2⟩
  intro x hx
  have hnew := hf _ (List.mem_append_right _ hstamp)
  rcases Set.mem_insert_iff.1 hx with rfl | hx
  · rcases hz with hz | hz
    · exact hnew _ hz
    · -- the two stamps differ
      rw [eq_of_mem_attachStamps hz, eq_of_mem_detachStamps hstamp]
      exact attachNewServers_nextClocktime_ne.symm
  · exact hnew _ hx

/-- The clocktime with which a loss stamps the hash spaces that have the server. -/
def faultStamps (ct : ClockTime) (a : Address) (m : Manager) : List ClockTime :=
  if m.whs.serverIsInclude a || m.rhs.serverIsInclude a then [ct] else []

/-- Both hash spaces that a loss stamps have the same nodes, or only one of them is stamped. -/
theorem coherent_faultServer {ct : ClockTime} {a : Address} (hS : Coherent S)
    (hm : ∀ x ∈ m.seeds, x ∈ S) (hf : ∀ ct' ∈ m.faultStamps ct a, ∀ x ∈ S, x.clocktime ≠ ct')
    (ha : m.whs.serverIsInclude a → m.rhs.serverIsInclude a →
      HashSpace.setActive a false m.whs.nodes = HashSpace.setActive a false m.rhs.nodes) :
    ∃ T, Coherent T ∧ S ⊆ T ∧ Sends T (faultServer ct a m) := by
  have hw : m.whs.seed ∈ S := hm _ (by simp [seeds])
  have hr : m.rhs.seed ∈ S := hm _ (by simp [seeds])
  have hsends : ∀ {T : Set Seed}, (m.whs.faultServer ct a).1.seed ∈ T →
      (m.rhs.faultServer ct a).1.seed ∈ T → Sends T (faultServer ct a m) := by
    intro T hw hr
    obtain ⟨c, hc⟩ := faultServer_eq ct a m
    refine ⟨fun x hx => ?_, fun x hx => ?_⟩
    · rw [hc] at hx
      simp only [seeds, List.mem_cons, List.not_mem_nil, or_false] at hx
      rcases hx with rfl | rfl
      · exact hw
      · exact hr
    · rcases faultServer_outSeeds hx with rfl | rfl
      · exact hw
      · exact hr
  have hfresh : m.whs.serverIsInclude a ∨ m.rhs.serverIsInclude a →
      ∀ ns : List Node, Coherent (insert ⟨ns, ct⟩ S) := fun hi ns => hS.insert <| .inr <|
    hf ct (by unfold faultStamps; rw [if_pos (by simpa using hi)]; exact List.mem_singleton_self _)
  rcases HashSpace.faultServer_cases m.whs ct a with ⟨h1, -⟩ | ⟨h1, hi1⟩ <;>
    rcases HashSpace.faultServer_cases m.rhs ct a with ⟨h2, -⟩ | ⟨h2, hi2⟩
  · refine ⟨S, hS, subset_rfl, hsends ?_ ?_⟩
    · rwa [h1]
    · rwa [h2]
  · refine ⟨_, hfresh (.inr hi2) (HashSpace.setActive a false m.rhs.nodes), Set.subset_insert _ _,
      hsends ?_ ?_⟩
    · rw [h1]
      exact Set.mem_insert_of_mem _ hw
    · rw [h2]
      exact Set.mem_insert _ _
  · refine ⟨_, hfresh (.inl hi1) (HashSpace.setActive a false m.whs.nodes), Set.subset_insert _ _,
      hsends ?_ ?_⟩
    · rw [h1]
      exact Set.mem_insert _ _
    · rw [h2]
      exact Set.mem_insert_of_mem _ hr
  · refine ⟨_, hfresh (.inl hi1) (HashSpace.setActive a false m.whs.nodes), Set.subset_insert _ _,
      hsends ?_ ?_⟩
    · rw [h1]
      exact Set.mem_insert _ _
    · rw [h2, ha hi1 hi2]
      exact Set.mem_insert _ _

end Manager

/-! ## Two managers -/

namespace Managers

variable {s t : Managers} {i : Bool} {a : Act}

/-- The hash spaces of the managers and of the messages between them. -/
def seeds (s : Managers) : List Seed :=
  [false, true].flatMap fun i => (s.mgr i).seeds ++ (s.inbox i).flatMap (·.seeds)

theorem mem_seeds {x : Seed} : x ∈ s.seeds ↔
    ∃ i, x ∈ (s.mgr i).seeds ∨ ∃ msg ∈ s.inbox i, x ∈ msg.seeds := by
  simp only [seeds, List.mem_flatMap, List.mem_append, List.mem_cons, List.not_mem_nil, or_false]
  constructor
  · rintro ⟨i, -, h⟩
    exact ⟨i, h⟩
  · rintro ⟨i, h⟩
    exact ⟨i, by cases i <;> simp, h⟩

theorem mem_seeds_of_mgr {x : Seed} (h : x ∈ (s.mgr i).seeds) : x ∈ s.seeds :=
  mem_seeds.2 ⟨i, .inl h⟩

/-- The clocktimes with which `ReplaceElection` stamps `whs`. -/
def electionStamps (hash : Bytes → UInt64) (m : Manager) (hsseed : Seed) : List ClockTime :=
  if hsseed.empty ∨ hsseed.clocktime < m.whs.clocktime then []
  else if m.whs.clocktime < hsseed.clocktime ∨ m.whs.nodes = hsseed.nodes then []
  else if m.partner < m.addr then []
  else m.attachDetachStamps hash

/-- The clocktimes with which a step stamps hash spaces. -/
def stamps (hash : Bytes → UInt64) (s : Managers) : Act → List ClockTime
  | .removeLocked i a ct => (s.mgr i).faultStamps ct a
  | .attach i _ => (s.mgr i).attachStamps hash
  | .detach i _ => Manager.detachStamps hash (s.mgr i).nextClocktime (s.mgr i).whs
  | .setAutoReplace i enable =>
    if !(s.mgr i).autoReplace && enable then (s.mgr i).attachDetachStamps hash else []
  | .fire i cas =>
    if (s.mgr i).delayedReplaceCas = cas then (s.mgr i).attachDetachStamps hash else []
  | .deliver i k =>
    match (s.inbox i)[k]? with
    | some (.replaceElection _ hsseed adjustClock) =>
      electionStamps hash ((s.mgr i).clockUpdate adjustClock) hsseed
    | _ => []
  | _ => []

/-- The hash spaces of a manager that both include a lost server have the same nodes then. -/
def LossAgrees (s : Managers) : Act → Prop
  | .removeLocked i a _ =>
    (s.mgr i).whs.serverIsInclude a → (s.mgr i).rhs.serverIsInclude a →
      HashSpace.setActive a false (s.mgr i).whs.nodes =
        HashSpace.setActive a false (s.mgr i).rhs.nodes
  | _ => True

/-- No hash space has a clocktime with which the step stamps one, and a loss does not stamp two
different ones. -/
def StampsNew (hash : Bytes → UInt64) (s : Managers) (a : Act) : Prop :=
  (∀ ct ∈ s.stamps hash a, ∀ x ∈ s.seeds, x.clocktime ≠ ct) ∧ s.LossAgrees a

instance : DecidablePred s.LossAgrees
  | .removeLocked .. => inferInstanceAs (Decidable (_ → _ → _ = _))
  | .connect .. | .lost .. | .invalidate .. | .fire .. | .partnerConnected .. | .deliver ..
  | .electionFailed .. | .attach .. | .detach .. | .setAutoReplace .. | .startReplace ..
  | .copyEnd .. | .publish .. | .deleteEnd .. | .clockUpdate .. | .keepAlive .. | .time ..
  | .expire .. => inferInstanceAs (Decidable True)

instance : Decidable (StampsNew hash s a) := inferInstanceAs (Decidable (_ ∧ _))

theorem finish_seeds {r : Manager × List Out} (h : s.finish i r = some t) {x : Seed}
    (hx : x ∈ t.seeds) : x ∈ s.seeds ∨ x ∈ r.1.seeds ∨ x ∈ outSeeds r.2 := by
  obtain ⟨j, hj | ⟨msg, hmsg, hj⟩⟩ := mem_seeds.1 hx
  · by_cases hji : j = i
    · subst hji
      rw [finish_mgr h] at hj
      exact .inr (.inl hj)
    · rw [finish_mgr_ne h hji] at hj
      exact .inl (mem_seeds_of_mgr hj)
  · rcases finish_inbox h hmsg with hmsg | hmsg
    · exact .inl (mem_seeds.2 ⟨j, .inr ⟨msg, hmsg, hj⟩⟩)
    · exact .inr (.inr (List.mem_flatMap.2 ⟨msg, hmsg, hj⟩))

theorem finish_coherent {r : Manager × List Out}
    (h : ∃ T, Coherent T ∧ {x | x ∈ s.seeds} ⊆ T ∧ Manager.Sends T r) (ht : s.finish i r = some t) :
    Coherent {x | x ∈ t.seeds} := by
  obtain ⟨T, hT, hs, hr⟩ := h
  refine hT.mono fun x hx => ?_
  rcases finish_seeds ht hx with hx | hx | hx
  · exact hs hx
  · exact hr.held x hx
  · exact hr.sent x hx

/-- A handler with no hash space of its own to add. -/
theorem finish_coherent_sends {r : Manager × List Out} (hs : Coherent {x | x ∈ s.seeds})
    (hr : Manager.Sends {x | x ∈ s.seeds} r) (ht : s.finish i r = some t) :
    Coherent {x | x ∈ t.seeds} :=
  finish_coherent ⟨_, hs, subset_rfl, hr⟩ ht

theorem finish_coherent_same {m : Manager} (hs : Coherent {x | x ∈ s.seeds})
    (hm : m.seeds = (s.mgr i).seeds) (ht : s.finish i (m, []) = some t) :
    Coherent {x | x ∈ t.seeds} :=
  finish_coherent_sends hs (Manager.sends_of_seeds (fun _ hx => mem_seeds_of_mgr hx) hm) ht

theorem answer_seeds (call : ℕ) (res : Option (Option Bool)) :
    (s.answer i call res).seeds = s.seeds := by
  cases res with
  | none => rfl
  | some b =>
    unfold answer seeds
    cases i <;> simp [PartnerMsg.seeds, Function.update]

section Handlers

variable {m : Manager} {S : Set Seed} (hS : Coherent S) (hm : ∀ x ∈ m.seeds, x ∈ S)

include hS hm

theorem coherent_replaceElection
    (hf : ∀ ct ∈ m.attachDetachStamps hash, ∀ x ∈ S, x.clocktime ≠ ct) :
    ∃ T, Coherent T ∧ S ⊆ T ∧ Manager.Sends T (m.replaceElection hash) := by
  obtain ⟨T, hT, hST, hr⟩ := Manager.coherent_attachDetach hS hm hf
  refine ⟨T, hT, hST, ?_⟩
  unfold Manager.replaceElection
  simp only []
  split_ifs
  · exact hr.andThen (Manager.sends_delegateReplace hr.held)
  · exact hr.andThen (Manager.sends_startReplace hr.held _)

theorem coherent_onReplaceElection {hsseed : Seed} {adjustClock : UInt32}
    (hf : ∀ ct ∈ electionStamps hash (m.clockUpdate adjustClock) hsseed,
      ∀ x ∈ S, x.clocktime ≠ ct) :
    ∃ T, Coherent T ∧ S ⊆ T ∧
      Manager.Sends T (m.onReplaceElection hash hsseed adjustClock).1 := by
  have hm' : ∀ x ∈ (m.clockUpdate adjustClock).seeds, x ∈ S := hm
  unfold electionStamps at hf
  unfold Manager.onReplaceElection
  simp only []
  split_ifs at hf ⊢
  · exact ⟨S, hS, subset_rfl, Manager.sends_of_seeds hm' rfl⟩
  · exact ⟨S, hS, subset_rfl, Manager.sends_of_seeds hm' rfl⟩
  · exact ⟨S, hS, subset_rfl, Manager.sends_of_seeds hm' rfl⟩
  · obtain ⟨T, hT, hST, hr⟩ := Manager.coherent_attachDetach hS hm' hf
    exact ⟨T, hT, hST, hr.andThen (Manager.sends_startReplace hr.held _)⟩

theorem coherent_controlAttach {replace : Bool}
    (hf : ∀ ct ∈ m.attachStamps hash, ∀ x ∈ S, x.clocktime ≠ ct) :
    ∃ T, Coherent T ∧ S ⊆ T ∧ Manager.Sends T (m.controlAttach hash replace) := by
  obtain ⟨z, hz, hr⟩ := Manager.sends_attachNewServers hash hm
  refine ⟨insert z S, hS.insert (hz.imp_right fun hz => hf _ hz), Set.subset_insert _ _, ?_⟩
  unfold Manager.controlAttach
  split_ifs
  · exact hr.andThen (Manager.sends_startReplace hr.held _)
  · exact hr

theorem coherent_controlDetach {replace : Bool}
    (hf : ∀ ct ∈ Manager.detachStamps hash m.nextClocktime m.whs, ∀ x ∈ S, x.clocktime ≠ ct) :
    ∃ T, Coherent T ∧ S ⊆ T ∧ Manager.Sends T (m.controlDetach hash replace) := by
  obtain ⟨z, hz, hr⟩ := Manager.sends_detachFaultServers hash hm
  refine ⟨insert z S, hS.insert (hz.imp_right fun hz => hf _ hz), Set.subset_insert _ _, ?_⟩
  unfold Manager.controlDetach
  split_ifs
  · exact hr.andThen (Manager.sends_startReplace hr.held _)
  · exact hr

theorem coherent_setAutoReplace {enable : Bool}
    (hf : !m.autoReplace && enable → ∀ ct ∈ m.attachDetachStamps hash, ∀ x ∈ S, x.clocktime ≠ ct) :
    ∃ T, Coherent T ∧ S ⊆ T ∧ Manager.Sends T (m.setAutoReplace hash enable) := by
  unfold Manager.setAutoReplace
  split_ifs with hoff hon
  · exact ⟨S, hS, subset_rfl, Manager.sends_of_seeds hm rfl⟩
  · have hsame : ({ m with autoReplace := true } : Manager).attachDetachStamps hash =
        m.attachDetachStamps hash := Manager.attachDetachStamps_congr rfl rfl rfl rfl
    refine Manager.coherent_attachDetach hS hm fun ct hct => ?_
    rw [hsame] at hct
    exact hf hon ct hct
  · exact ⟨S, hS, subset_rfl, Manager.sends_of_seeds hm rfl⟩

theorem coherent_removeServerLocked {a : Address} {ct : ClockTime}
    (hf : ∀ ct' ∈ m.faultStamps ct a, ∀ x ∈ S, x.clocktime ≠ ct')
    (ha : m.whs.serverIsInclude a → m.rhs.serverIsInclude a →
      HashSpace.setActive a false m.whs.nodes = HashSpace.setActive a false m.rhs.nodes) :
    ∃ T, Coherent T ∧ S ⊆ T ∧ Manager.Sends T (m.removeServerLocked a ct) := by
  obtain ⟨T, hT, hST, hr⟩ := Manager.coherent_faultServer
    (m := { m with removing := m.removing.erase (a, ct) }) hS hm hf ha
  refine ⟨T, hT, hST, hr.andThen ?_⟩
  simp only []
  split_ifs
  · exact Manager.sends_of_seeds hr.held rfl
  · exact Manager.sends_of_seeds hr.held rfl

end Handlers

section Sends

variable {m : Manager} {S : Set Seed}

theorem sends_onElectionResult {call : ℕ} {res : Option Bool} (hm : ∀ x ∈ m.seeds, x ∈ S) :
    Manager.Sends S (m.onElectionResult call res) := by
  unfold Manager.onElectionResult
  simp only []
  split_ifs
  · exact Manager.sends_startReplace (m := { m with calls := m.calls.erase call }) hm _
  · exact Manager.sends_of_seeds hm rfl

theorem sends_replaceCopyEnd {replaceTime : ClockTime} {adjustClock : UInt32} {b : Address}
    (hm : ∀ x ∈ m.seeds, x ∈ S) :
    Manager.Sends S (m.replaceCopyEnd replaceTime adjustClock b) := by
  unfold Manager.replaceCopyEnd
  simp only []
  split_ifs
  · exact ⟨hm, by simp [Manager.finishReplaceCopy, outSeeds, partnerMsgs]⟩
  · exact Manager.sends_of_seeds hm rfl

theorem sends_publish (hm : ∀ x ∈ m.seeds, x ∈ S) : Manager.Sends S m.publish := by
  have hw : m.whs.seed ∈ S := hm _ (by simp [Manager.seeds])
  have hp : ∀ x ∈ ({ m with rhs := m.whs, finishing := false } : Manager).seeds, x ∈ S := by
    intro x hx
    simp only [Manager.seeds, List.mem_cons, List.not_mem_nil, or_false, or_self] at hx
    exact hx ▸ hw
  refine Manager.Sends.andThen ⟨hp, ?_⟩ (Manager.sends_syncHashSpacePartner hp)
  simp [Manager.pushHashSpaceClients, outSeeds, partnerMsgs]

end Sends

/-! ## Runs -/

theorem hashSpaceSync_seeds {m : Manager} {wseed rseed x : Seed} {adjustClock : UInt32}
    (h : x ∈ (m.hashSpaceSync hash wseed rseed adjustClock).seeds) :
    x ∈ m.seeds ∨ x = wseed ∨ x = rseed := by
  simp only [Manager.hashSpaceSync, Manager.seeds, List.mem_cons, List.not_mem_nil, or_false] at h
  rcases h with rfl | rfl
  · split_ifs
    · exact .inr (.inl rfl)
    · exact .inl (by simp [Manager.seeds, Manager.clockUpdate])
  · split_ifs
    · exact .inr (.inr rfl)
    · exact .inl (by simp [Manager.seeds, Manager.clockUpdate])

theorem receive_coherent {msg : PartnerMsg} (hs : Coherent (S ∪ {x | x ∈ s.seeds}))
    (hmsg : ∀ x ∈ msg.seeds, x ∈ S)
    (hf : ∀ call hsseed adjustClock, msg = .replaceElection call hsseed adjustClock →
      ∀ ct ∈ electionStamps hash ((s.mgr i).clockUpdate adjustClock) hsseed,
        ∀ x ∈ s.seeds, x.clocktime ≠ ct)
    (h : receive hash s i msg = some t) : Coherent {x | x ∈ t.seeds} := by
  have hs' : Coherent {x | x ∈ s.seeds} := hs.mono Set.subset_union_right
  cases msg with
  | hashSpaceSync wseed rseed adjustClock =>
    simp only [receive] at h
    split_ifs at h
    · cases h
      exact hs'
    · refine finish_coherent ⟨_, hs, Set.subset_union_right, fun x hx => ?_, by
        simp [outSeeds, partnerMsgs]⟩ h
      rcases hashSpaceSync_seeds hx with hx | rfl | rfl
      · exact .inr (mem_seeds_of_mgr hx)
      · exact .inl (hmsg _ (by simp [PartnerMsg.seeds]))
      · exact .inl (hmsg _ (by simp [PartnerMsg.seeds]))
  | replaceElection call hsseed adjustClock =>
    simp only [receive] at h
    split_ifs at h
    · cases h
      rw [answer_seeds]
      exact hs'
    · obtain ⟨u, hu, rfl⟩ := Option.map_eq_some_iff.1 h
      rw [answer_seeds]
      exact finish_coherent (coherent_onReplaceElection hs' (fun _ hx => mem_seeds_of_mgr hx)
        (hf _ _ _ rfl)) hu
  | replaceElectionResult call res =>
    simp only [receive] at h
    split_ifs at h
    · refine finish_coherent_sends hs' ?_ h
      exact sends_onElectionResult (fun _ hx => mem_seeds_of_mgr hx)
    · cases h
      exact hs'

theorem step_coherent (hs : Coherent {x | x ∈ s.seeds}) (hg : StampsNew hash s a)
    (h : step hash s a = some t) : Coherent {x | x ∈ t.seeds} := by
  obtain ⟨hf, hl⟩ := hg
  have hmem : ∀ i, ∀ x ∈ (s.mgr i).seeds, x ∈ {x | x ∈ s.seeds} := fun _ _ hx =>
    mem_seeds_of_mgr hx
  cases a with
  | connect i a => exact finish_coherent_same hs Manager.addServer_seeds h
  | lost i a => exact finish_coherent_same hs (by rfl) h
  | removeLocked i a ct =>
    simp only [step] at h
    split_ifs at h
    exact finish_coherent (coherent_removeServerLocked hs (hmem i) hf hl) h
  | invalidate i =>
    simp only [step] at h
    split_ifs at h
    exact finish_coherent_same hs (by rfl) h
  | fire i cas =>
    simp only [step] at h
    split_ifs at h
    refine finish_coherent ?_ h
    unfold Manager.casCheckedReplaceElection
    simp only [stamps] at hf
    split_ifs at hf ⊢
    · have hsame : ({ s.mgr i with timers := (s.mgr i).timers.erase cas } :
          Manager).attachDetachStamps hash = (s.mgr i).attachDetachStamps hash :=
        Manager.attachDetachStamps_congr rfl rfl rfl rfl
      refine coherent_replaceElection hs (hmem i) fun ct hct => ?_
      rw [hsame] at hct
      exact hf ct hct
    · exact ⟨_, hs, subset_rfl, Manager.sends_of_seeds (hmem i) rfl⟩
  | partnerConnected i =>
    exact finish_coherent_sends hs (Manager.sends_syncHashSpacePartner (hmem i)) h
  | deliver i k =>
    obtain ⟨msg, hmsg, h⟩ := Option.bind_eq_some_iff.1 h
    have hle : ∀ x, x ∈ ({ s with
        inbox := Function.update s.inbox i ((s.inbox i).eraseIdx k) } : Managers).seeds →
        x ∈ s.seeds := fun x hx => by
      obtain ⟨j, hj | ⟨n, hn, hj⟩⟩ := mem_seeds.1 hx
      · exact mem_seeds_of_mgr hj
      · refine mem_seeds.2 ⟨j, .inr ⟨n, ?_, hj⟩⟩
        by_cases hji : j = i
        · subst hji
          simp only [Function.update_self] at hn
          exact List.mem_of_mem_eraseIdx hn
        · simpa [Function.update_of_ne hji] using hn
    refine receive_coherent (S := {x | x ∈ s.seeds}) (hs.mono (Set.union_subset subset_rfl hle))
      (fun x hx => mem_seeds.2 ⟨i, .inr ⟨msg, List.mem_of_getElem? hmsg, hx⟩⟩) ?_ h
    rintro call hsseed adjustClock rfl ct hct x hx
    refine hf ct ?_ x (hle x hx)
    simp only [stamps, hmsg]
    exact hct
  | electionFailed i call =>
    simp only [step] at h
    split_ifs at h
    exact finish_coherent_sends hs (sends_onElectionResult (hmem i)) h
  | attach i replace =>
    exact finish_coherent (coherent_controlAttach hs (hmem i) hf) h
  | detach i replace =>
    exact finish_coherent (coherent_controlDetach hs (hmem i) hf) h
  | setAutoReplace i enable =>
    refine finish_coherent (coherent_setAutoReplace hs (hmem i) fun hon => ?_) h
    simp only [stamps] at hf
    rwa [if_pos hon] at hf
  | startReplace i full =>
    exact finish_coherent_sends hs (Manager.sends_startReplace (hmem i) _) h
  | copyEnd i replaceTime adjustClock b =>
    simp only [step] at h
    split_ifs at h
    exact finish_coherent_sends hs (sends_replaceCopyEnd (hmem i)) h
  | publish i =>
    simp only [step] at h
    split_ifs at h
    exact finish_coherent_sends hs (sends_publish (hmem i)) h
  | deleteEnd i replaceTime adjustClock b =>
    simp only [step] at h
    split_ifs at h
    exact finish_coherent_same hs (by rfl) h
  | clockUpdate i c => exact finish_coherent_same hs (by rfl) h
  | keepAlive i => exact finish_coherent_same hs (by rfl) h
  | time i t => exact finish_coherent_same hs (by rfl) h
  | expire i k => exact finish_coherent_same hs (by rfl) h

theorem init_coherent {addr partner : Bool → Address} {clock : Bool → ClockLogic}
    {auto : Bool → Bool} : Coherent {x | x ∈ (init addr partner clock auto).seeds} := by
  have hx : ∀ x ∈ (init addr partner clock auto).seeds, x = HashSpace.init.seed := fun x hx => by
    simpa [seeds, init, Manager.init, Manager.seeds] using hx
  intro x hx' y hy' _
  rw [hx x hx', hx y hy']

/-- What `calc_replicators` takes equal clocktimes to mean. -/
def ClocktimeTellsNodes (m : Manager) : Prop :=
  m.whs.clocktime = m.rhs.clocktime → m.whs.nodes = m.rhs.nodes

/-- In every state that such steps reach, hash spaces of one clocktime have the same nodes. -/
theorem clocktimeTellsNodes_of_run {addr partner : Bool → Address} {clock : Bool → ClockLogic}
    {auto : Bool → Bool} {as : List Act}
    (h : Machine.Run (step hash) (StampsNew hash) (init addr partner clock auto) as s) (i : Bool) :
    ClocktimeTellsNodes (s.mgr i) := by
  have hs : Coherent {x | x ∈ s.seeds} :=
    h.inv (I := fun s => Coherent {x | x ∈ s.seeds}) (fun _ _ _ hs hg ht => step_coherent hs hg ht)
      init_coherent
  have hw : (s.mgr i).whs.seed ∈ s.seeds := mem_seeds_of_mgr (i := i) (by simp [Manager.seeds])
  have hr : (s.mgr i).rhs.seed ∈ s.seeds := mem_seeds_of_mgr (i := i) (by simp [Manager.seeds])
  exact hs _ hw _ hr

/-! A cluster of two servers; then the first is lost, or a third one comes and the first is lost
while the replace runs. -/

section Sample

open Sample

def startRun : List Act :=
  [.connect false (svr 1), .connect false (svr 2), .fire false 2,
    .copyEnd false (.mk' 1 1000) 5 (svr 1), .copyEnd false (.mk' 1 1000) 5 (svr 2), .publish false]

def lossRun : List Act :=
  startRun ++ [.lost false (svr 1), .removeLocked false (svr 1) (.mk' 8 1000)]

theorem clocktimeTellsNodes_lossRun : ∃ s, Machine.Run (step zeroHash) (StampsNew zeroHash) pair
    lossRun s ∧ (s.mgr false).whs.clocktime = (s.mgr false).rhs.clocktime ∧
      ClocktimeTellsNodes (s.mgr false) := by
  have h : Machine.Run (step zeroHash) (StampsNew zeroHash) pair lossRun _ :=
    Machine.execIf_run rfl
  exact ⟨_, h, by decide, clocktimeTellsNodes_of_run h false⟩

theorem not_clocktimeTellsNodes_lossWhileReplacing : ∃ s,
    Machine.Run (step zeroHash) Machine.Free pair
      (startRun ++ [.connect false (svr 3), .fire false 3, .lost false (svr 1),
        .removeLocked false (svr 1) (.mk' 13 1000)]) s ∧
      ¬ ClocktimeTellsNodes (s.mgr false) := by
  refine ⟨_, Machine.exec_run rfl, ?_⟩
  unfold ClocktimeTellsNodes
  decide

end Sample

end Managers

end Kumofs
