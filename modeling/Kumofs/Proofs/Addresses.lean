import Kumofs.Proofs.Managers
import Kumofs.Sample

/-!
# The addresses of a hash space differ

`add_server` of a hash space does not look for the address it adds. The managers only call it for a
server that `server_is_include` does not find, and no other operation adds a node, so the node
lists of the managers and of all they send have every address once.
-/

namespace Kumofs

/-- No two nodes have one address. -/
def Seed.UniqueAddresses (x : Seed) : Prop := (x.nodes.map (·.addr)).Nodup

instance (x : Seed) : Decidable x.UniqueAddresses := inferInstanceAs (Decidable (List.Nodup _))

namespace HashSpace

variable {hash : Bytes → UInt64} {hs : HashSpace} {ct : ClockTime} {a : Address}

theorem setActive_map_addr {b : Bool} : ∀ ns : List Node,
    (setActive a b ns).map (·.addr) = ns.map (·.addr)
  | [] => rfl
  | n :: ns => by
    unfold setActive
    split_ifs
    · rfl
    · rw [List.map_cons, List.map_cons, setActive_map_addr ns]

theorem uniqueAddresses_faultServer (h : hs.seed.UniqueAddresses) :
    (hs.faultServer ct a).1.seed.UniqueAddresses := by
  unfold faultServer
  split_ifs
  · show ((setActive a false hs.nodes).map (·.addr)).Nodup
    rw [setActive_map_addr]
    exact h
  · exact h

theorem uniqueAddresses_recoverServer (h : hs.seed.UniqueAddresses) :
    (hs.recoverServer ct a).1.seed.UniqueAddresses := by
  unfold recoverServer
  split_ifs
  · show ((setActive a true hs.nodes).map (·.addr)).Nodup
    rw [setActive_map_addr]
    exact h
  · exact h

theorem uniqueAddresses_addServer (h : hs.seed.UniqueAddresses) (ha : ¬ hs.serverIsInclude a) :
    (hs.addServer hash ct a).seed.UniqueAddresses := by
  show ((hs.nodes ++ [(⟨a, true⟩ : Node)]).map Node.addr).Nodup
  rw [List.map_append, List.nodup_append]
  refine ⟨h, List.nodup_singleton _, fun b hb c hc => ?_⟩
  rintro rfl
  obtain ⟨n, hn, rfl⟩ := List.mem_map.1 hb
  apply ha
  rw [serverIsInclude, List.any_eq_true]
  refine ⟨n, hn, ?_⟩
  simpa using hc

theorem uniqueAddresses_removeFaultServers (h : hs.seed.UniqueAddresses) :
    (hs.removeFaultServers hash ct).1.seed.UniqueAddresses := by
  unfold removeFaultServers
  split_ifs
  · exact h.sublist (List.filter_sublist.map _)
  · exact h

end HashSpace

/-! ## What a manager holds and sends -/

def ServerMsg.seeds : ServerMsg → List Seed
  | .hashSpaceSync wseed rseed _ => [wseed, rseed]
  | .replaceCopyStart hsseed _ _ => [hsseed]
  | .replaceDeleteStart hsseed _ => [hsseed]

/-- The hash spaces that a manager sends its partner, servers or gateways. -/
def Out.seeds : Out → List Seed
  | .partner (.hashSpaceSync wseed rseed _) => [wseed, rseed]
  | .partner (.replaceElection _ hsseed _) => [hsseed]
  | .partner (.replaceElectionResult _ _) => []
  | .servers _ m => m.seeds
  | .clients wseed rseed => [wseed, rseed]

namespace Manager

variable {hash : Bytes → UInt64} {m : Manager} {P : Seed → Prop}

/-- The manager's hash spaces and all those the handler sends satisfy `P`. -/
structure AllSeeds (P : Seed → Prop) (r : Manager × List Out) : Prop where
  held : ∀ x ∈ r.1.seeds, P x
  sent : ∀ o ∈ r.2, ∀ x ∈ o.seeds, P x

theorem AllSeeds.andThen {r : Manager × List Out} {f : Manager → Manager × List Out}
    (h : AllSeeds P r) (h' : AllSeeds P (f r.1)) : AllSeeds P (andThen r f) := by
  refine ⟨h'.held, fun o ho => ?_⟩
  rcases List.mem_append.1 ho with ho | ho
  · exact h.sent o ho
  · exact h'.sent o ho

/-! ### Handlers that send the hash spaces as they are -/

section Same

variable (hm : ∀ x ∈ m.seeds, P x)

include hm

theorem allSeeds_nil {m' : Manager} (h : m'.seeds = m.seeds) : AllSeeds P (m', []) :=
  ⟨fun x hx => hm x (h ▸ hx), fun _ ho => absurd ho List.not_mem_nil⟩

/-- A handler that sends one message, with hash spaces of the manager. -/
theorem allSeeds_singleton {m' : Manager} {o : Out} (h : m'.seeds = m.seeds)
    (ho : ∀ x ∈ o.seeds, x ∈ m.seeds) : AllSeeds P (m', [o]) := by
  refine ⟨fun x hx => hm x (h ▸ hx), fun o' ho' x hx => hm x (ho x ?_)⟩
  rwa [List.mem_singleton.1 ho'] at hx

theorem allSeeds_syncHashSpacePartner : AllSeeds P m.syncHashSpacePartner := by
  unfold syncHashSpacePartner
  split_ifs
  · exact allSeeds_singleton hm rfl (fun _ hx => hx)
  · exact allSeeds_nil hm rfl

theorem allSeeds_syncHashSpaceServers : AllSeeds P m.syncHashSpaceServers :=
  allSeeds_singleton hm rfl (fun _ hx => hx)

theorem allSeeds_pushHashSpaceClients : AllSeeds P m.pushHashSpaceClients :=
  allSeeds_singleton hm rfl (fun _ hx => hx)

theorem allSeeds_delegateReplace : AllSeeds P m.delegateReplace :=
  allSeeds_singleton hm rfl (fun _ hx => List.mem_cons.2 (.inl (List.mem_singleton.1 hx)))

theorem allSeeds_startReplace (full : Bool) : AllSeeds P (m.startReplace full) := by
  refine AllSeeds.andThen (allSeeds_singleton hm rfl fun _ hx => ?_)
    (allSeeds_pushHashSpaceClients hm)
  exact List.mem_cons.2 (.inl (List.mem_singleton.1 hx))

theorem allSeeds_replaceCopyEnd (replaceTime : ClockTime) (adjustClock : UInt32) (b : Address) :
    AllSeeds P (m.replaceCopyEnd replaceTime adjustClock b) := by
  unfold replaceCopyEnd
  simp only []
  split_ifs
  · refine allSeeds_singleton hm rfl fun _ hx => ?_
    exact List.mem_cons.2 (.inl (List.mem_singleton.1 hx))
  · exact allSeeds_nil hm rfl

theorem allSeeds_onElectionResult (call : ℕ) (res : Option Bool) :
    AllSeeds P (m.onElectionResult call res) := by
  unfold onElectionResult
  simp only []
  split_ifs
  · exact allSeeds_startReplace (m := { m with calls := m.calls.erase call }) hm _
  · exact allSeeds_nil hm rfl

theorem allSeeds_publish : AllSeeds P m.publish := by
  have hp : ∀ x ∈ ({ m with rhs := m.whs, finishing := false } : Manager).seeds, P x := by
    intro x hx
    refine hm x (List.mem_cons.2 (.inl ?_))
    simpa [seeds] using hx
  exact (allSeeds_pushHashSpaceClients hp).andThen (allSeeds_syncHashSpacePartner hp)

end Same

/-! ### Handlers that change the node lists -/

section Change

variable (hm : ∀ x ∈ m.seeds, x.UniqueAddresses)

theorem uniqueAddresses_attachAll {ct : ClockTime} : ∀ (ns : List WeakNode) {whs : HashSpace},
    whs.seed.UniqueAddresses → (attachAll hash ct whs ns).seed.UniqueAddresses
  | [], _, h => h
  | n :: ns, whs, h => by
    unfold attachAll
    split_ifs with he hi
    · exact uniqueAddresses_attachAll ns h
    · exact uniqueAddresses_attachAll ns (HashSpace.uniqueAddresses_recoverServer h)
    · exact uniqueAddresses_attachAll ns (HashSpace.uniqueAddresses_addServer h hi)

theorem forall_seeds {P : Seed → Prop} : (∀ x ∈ m.seeds, P x) ↔ P m.whs.seed ∧ P m.rhs.seed := by
  simp [seeds]

include hm

theorem allSeeds_attachNewServers : AllSeeds Seed.UniqueAddresses (m.attachNewServers hash) := by
  obtain ⟨hw, hr⟩ := forall_seeds.1 hm
  exact allSeeds_syncHashSpacePartner (forall_seeds.2 ⟨uniqueAddresses_attachAll _ hw, hr⟩)

theorem allSeeds_detachFaultServers :
    AllSeeds Seed.UniqueAddresses (m.detachFaultServers hash) := by
  obtain ⟨hw, hr⟩ := forall_seeds.1 hm
  exact allSeeds_syncHashSpacePartner
    (forall_seeds.2 ⟨HashSpace.uniqueAddresses_removeFaultServers hw, hr⟩)

theorem allSeeds_attachDetach : AllSeeds Seed.UniqueAddresses
    (andThen (m.attachNewServers hash) (detachFaultServers hash)) :=
  (allSeeds_attachNewServers hm).andThen
    (allSeeds_detachFaultServers (allSeeds_attachNewServers hm).held)

theorem allSeeds_casCheckedReplaceElection (cas : UInt32) :
    AllSeeds Seed.UniqueAddresses (m.casCheckedReplaceElection hash cas) := by
  have h := @allSeeds_attachDetach hash m hm
  unfold casCheckedReplaceElection replaceElection
  simp only []
  split_ifs
  · exact h.andThen (allSeeds_delegateReplace h.held)
  · exact h.andThen (allSeeds_startReplace h.held _)
  · exact allSeeds_nil hm rfl

theorem allSeeds_onReplaceElection (hsseed : Seed) (adjustClock : UInt32) :
    AllSeeds Seed.UniqueAddresses (m.onReplaceElection hash hsseed adjustClock).1 := by
  have h := @allSeeds_attachDetach hash (m.clockUpdate adjustClock) hm
  unfold onReplaceElection
  simp only []
  split_ifs
  · exact allSeeds_nil hm rfl
  · exact allSeeds_nil hm rfl
  · exact allSeeds_nil hm rfl
  · exact h.andThen (allSeeds_startReplace h.held _)

theorem allSeeds_controlAttach (replace : Bool) :
    AllSeeds Seed.UniqueAddresses (m.controlAttach hash replace) := by
  have h := @allSeeds_attachNewServers hash m hm
  unfold controlAttach
  split_ifs
  · exact h.andThen (allSeeds_startReplace h.held _)
  · exact h

theorem allSeeds_controlDetach (replace : Bool) :
    AllSeeds Seed.UniqueAddresses (m.controlDetach hash replace) := by
  have h := @allSeeds_detachFaultServers hash m hm
  unfold controlDetach
  split_ifs
  · exact h.andThen (allSeeds_startReplace h.held _)
  · exact h

theorem allSeeds_setAutoReplace (enable : Bool) :
    AllSeeds Seed.UniqueAddresses (m.setAutoReplace hash enable) := by
  unfold setAutoReplace
  split_ifs
  · exact allSeeds_nil hm rfl
  · exact allSeeds_attachDetach (m := { m with autoReplace := true }) hm
  · exact allSeeds_nil hm rfl

theorem allSeeds_removeServerLocked (a : Address) (ct : ClockTime) :
    AllSeeds Seed.UniqueAddresses (m.removeServerLocked a ct) := by
  obtain ⟨hw, hr⟩ := forall_seeds.1 hm
  have hf : AllSeeds Seed.UniqueAddresses
      (faultServer ct a { m with removing := m.removing.erase (a, ct) }) := by
    have hx : ∀ x ∈ ({ m with
        removing := m.removing.erase (a, ct)
        whs := (m.whs.faultServer ct a).1
        rhs := (m.rhs.faultServer ct a).1 } : Manager).seeds, x.UniqueAddresses :=
      forall_seeds.2 ⟨HashSpace.uniqueAddresses_faultServer hw,
        HashSpace.uniqueAddresses_faultServer hr⟩
    unfold faultServer
    simp only []
    split_ifs
    · have h1 := allSeeds_syncHashSpacePartner hx
      have h2 := h1.andThen (allSeeds_syncHashSpaceServers h1.held)
      exact h2.andThen (allSeeds_pushHashSpaceClients h2.held)
    · exact allSeeds_nil hx rfl
  refine hf.andThen ?_
  simp only []
  split_ifs
  · exact allSeeds_nil hf.held rfl
  · exact allSeeds_nil hf.held rfl

theorem allSeeds_hashSpaceSync {wseed rseed : Seed} (adjustClock : UInt32)
    (hw : wseed.UniqueAddresses) (hr : rseed.UniqueAddresses) :
    AllSeeds Seed.UniqueAddresses (m.hashSpaceSync hash wseed rseed adjustClock, []) := by
  obtain ⟨hmw, hmr⟩ := forall_seeds.1 hm
  refine ⟨forall_seeds.2 ⟨?_, ?_⟩, fun _ ho => absurd ho List.not_mem_nil⟩
  · unfold hashSpaceSync
    simp only []
    split_ifs
    · exact hw
    · exact hmw
  · unfold hashSpaceSync
    simp only []
    split_ifs
    · exact hr
    · exact hmr

end Change

end Manager

/-! ## Two managers -/

namespace Managers

open Manager

variable {hash : Bytes → UInt64} {s t : Managers} {a : Act}

/-- Every hash space the managers hold, have sent servers or have on its way to each other. -/
structure Unique (s : Managers) : Prop where
  held : ∀ i, ∀ x ∈ (s.mgr i).seeds, x.UniqueAddresses
  inFlight : ∀ i, ∀ msg ∈ s.inbox i, ∀ x ∈ msg.seeds, x.UniqueAddresses
  logged : ∀ i, ∀ p ∈ s.log i, ∀ x ∈ p.2.seeds, x.UniqueAddresses

theorem Unique.handle (hs : Unique s) {i : Bool} {msg : PartnerMsg} (hmsg : msg ∈ s.inbox i) :
    AllSeeds Seed.UniqueAddresses (s.handle hash i msg) := by
  cases msg with
  | hashSpaceSync wseed rseed adjustClock =>
    have hx := hs.inFlight i _ hmsg
    simp only [Managers.handle]
    split_ifs
    · exact allSeeds_nil (hs.held i) rfl
    · exact allSeeds_hashSpaceSync (hs.held i) adjustClock (hx _ (by simp [PartnerMsg.seeds]))
        (hx _ (by simp [PartnerMsg.seeds]))
  | replaceElection call hsseed adjustClock =>
    simp only [Managers.handle]
    split_ifs
    · exact allSeeds_nil (hs.held i) rfl
    · exact allSeeds_onReplaceElection (hs.held i) hsseed adjustClock
  | replaceElectionResult call res =>
    simp only [Managers.handle]
    split_ifs
    · exact allSeeds_onElectionResult (hs.held i) call res
    · exact allSeeds_nil (hs.held i) rfl

theorem Unique.handled (hs : Unique s) (a : Act) :
    AllSeeds Seed.UniqueAddresses (s.handled hash a) := by
  cases a with
  | connect i a => exact allSeeds_nil (hs.held i) addServer_seeds
  | lost i a => exact allSeeds_nil (hs.held i) rfl
  | removeLocked i a ct => exact allSeeds_removeServerLocked (hs.held i) a ct
  | invalidate i => exact allSeeds_nil (hs.held i) rfl
  | fire i cas =>
    exact allSeeds_casCheckedReplaceElection
      (m := { s.mgr i with timers := (s.mgr i).timers.erase cas }) (hs.held i) cas
  | partnerConnected i => exact allSeeds_syncHashSpacePartner (hs.held i)
  | deliver i k =>
    simp only [Managers.handled]
    cases hk : (s.inbox i)[k]? with
    | none => exact allSeeds_nil (hs.held i) rfl
    | some msg => exact hs.handle (List.mem_of_getElem? hk)
  | electionFailed i call => exact allSeeds_onElectionResult (hs.held i) call none
  | attach i replace => exact allSeeds_controlAttach (hs.held i) replace
  | detach i replace => exact allSeeds_controlDetach (hs.held i) replace
  | setAutoReplace i enable => exact allSeeds_setAutoReplace (hs.held i) enable
  | startReplace i full => exact allSeeds_startReplace (hs.held i) full
  | copyEnd i replaceTime adjustClock b =>
    exact allSeeds_replaceCopyEnd (hs.held i) replaceTime adjustClock b
  | publish i => exact allSeeds_publish (hs.held i)
  | deleteEnd i replaceTime adjustClock b => exact allSeeds_nil (hs.held i) rfl
  | clockUpdate i c => exact allSeeds_nil (hs.held i) rfl
  | keepAlive i => exact allSeeds_nil (hs.held i) rfl
  | time i t => exact allSeeds_nil (hs.held i) rfl
  | expire i k => exact allSeeds_nil (hs.held i) rfl

theorem Unique.of_step (hs : Unique s) (h : step hash s a = some t) : Unique t := by
  have ht := stepped_of_step h
  have hk := @Unique.handled hash s hs a
  refine ⟨fun j x hx => ?_, fun j msg hmsg x hx => ?_, fun j p hp x hx => ?_⟩
  · rcases who_or a j with rfl | rfl
    · rw [ht.mgr] at hx
      exact hk.held x hx
    · rw [ht.mgrOther] at hx
      exact hs.held _ x hx
  · rcases ht.mem_inbox hmsg with hmsg | ⟨-, hmsg | hmsg⟩
    · exact hs.inFlight j msg hmsg x hx
    · refine hk.sent _ (mem_partnerMsgs.1 hmsg) x ?_
      cases msg with
      | hashSpaceSync wseed rseed adjustClock => exact hx
      | _ => exact absurd hx List.not_mem_nil
    · obtain ⟨call, res, rfl⟩ := eq_result_of_replied hmsg
      exact absurd hx List.not_mem_nil
  · rcases who_or a j with rfl | rfl
    · rw [ht.log, List.mem_append, List.mem_reverse] at hp
      rcases hp with hp | hp
      · exact hk.sent _ (mem_serverMsgs.1 hp) x hx
      · exact hs.logged _ p hp x hx
    · rw [ht.logOther] at hp
      exact hs.logged _ p hp x hx

theorem Unique.init (addr partner : Bool → Address) (clock : Bool → ClockLogic)
    (auto : Bool → Bool) : Unique (init addr partner clock auto) := by
  refine ⟨fun i x hx => ?_, fun i msg hmsg => ?_, fun i p hp => ?_⟩
  · have hx : x = HashSpace.init.seed := by simpa [Managers.init, Manager.init, seeds] using hx
    rw [hx]
    exact List.nodup_nil
  · exact absurd hmsg List.not_mem_nil
  · exact absurd hp List.not_mem_nil

/-- In every state that two managers reach, their hash spaces have every address once, and so has
every hash space that the next step sends. A request for a hash space is answered with the
manager's own. -/
theorem uniqueAddresses_of_run {addr partner : Bool → Address} {clock : Bool → ClockLogic}
    {auto : Bool → Bool} {as : List Act}
    (h : Machine.Run (step hash) Machine.Free (init addr partner clock auto) as s) :
    (∀ i, (s.mgr i).whs.seed.UniqueAddresses ∧ (s.mgr i).rhs.seed.UniqueAddresses) ∧
      (∀ i, ∀ p ∈ s.log i, ∀ x ∈ p.2.seeds, x.UniqueAddresses) ∧
      ∀ a t, step hash s a = some t →
        ∀ o ∈ (s.handled hash a).2, ∀ x ∈ o.seeds, x.UniqueAddresses := by
  have hs : Unique s := h.inv (fun _ _ _ hs _ ht => hs.of_step ht) (Unique.init _ _ _ _)
  exact ⟨fun i => forall_seeds.1 (hs.held i), hs.logged, fun a t _ => (hs.handled a).sent⟩

/-! A server that connects twice, gets lost and comes back. -/

section Sample

open Sample

def reconnectRun : List Act :=
  [.connect false (svr 1), .connect false (svr 1), .connect false (svr 2), .fire false 3,
    .lost false (svr 1), .removeLocked false (svr 1) (.mk' 6 1000), .connect false (svr 1),
    .deliver true 0, .connect true (svr 1), .fire false 5]

theorem uniqueAddresses_reconnectRun : ∃ s,
    Machine.Run (step zeroHash) Machine.Free pair reconnectRun s ∧
      (s.mgr false).whs.seed.nodes = [⟨svr 1, true⟩, ⟨svr 2, true⟩] ∧
      ∀ i, (s.mgr i).whs.seed.UniqueAddresses ∧ (s.mgr i).rhs.seed.UniqueAddresses := by
  have h : Machine.Run (step zeroHash) Machine.Free pair reconnectRun _ := Machine.exec_run rfl
  exact ⟨_, h, by decide, (uniqueAddresses_of_run h).1⟩

end Sample

end Managers

end Kumofs
