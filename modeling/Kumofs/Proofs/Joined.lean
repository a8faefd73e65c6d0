import Kumofs.Proofs.Managers
import Kumofs.Sample

/-!
# Connected servers, joined or waiting

`new_servers` holds the servers that are connected and not joined. The handlers of one manager move
a server from there into `whs` and never leave one behind. The partner's hash space is taken as it
is, though: a connected server that it says is faulty, or does not have, is in neither.
-/

namespace Kumofs

namespace HashSpace

variable {hash : Bytes → UInt64} {hs : HashSpace} {ct : ClockTime} {a b : Address}

theorem find_setActive_ne {x : Bool} (hb : b ≠ a) : ∀ ns : List Node,
    (setActive a x ns).find? (·.addr == b) = ns.find? (·.addr == b)
  | [] => rfl
  | n :: ns => by
    unfold setActive
    split_ifs with hn
    · have hnb : (n.addr == b) = false := by
        rw [eq_of_beq hn]
        simpa using hb.symm
      rw [List.find?_cons_of_neg (by simp [hnb]), List.find?_cons_of_neg (by simp [hnb])]
    · rw [List.find?_cons, List.find?_cons, find_setActive_ne hb ns]

theorem find_setActive_self {x : Bool} : ∀ {ns : List Node}, ns.any (·.addr == a) →
    (setActive a x ns).find? (·.addr == a) = some ⟨a, x⟩
  | [], h => absurd h (by simp)
  | n :: ns, h => by
    unfold setActive
    split_ifs with hn
    · rw [List.find?_cons_of_pos (by simpa using hn), eq_of_beq hn]
    · rw [List.find?_cons_of_neg (by simpa using hn)]
      refine find_setActive_self ?_
      simpa [hn] using h

theorem find_filter_active : ∀ {ns : List Node}, (ns.find? (·.addr == a)).any (·.active) →
    ((ns.filter (·.active)).find? (·.addr == a)).any (·.active)
  | [], h => h
  | n :: ns, h => by
    by_cases hn : n.addr == a
    · rw [List.find?_cons_of_pos (by exact hn)] at h
      rw [List.filter_cons_of_pos (by exact h), List.find?_cons_of_pos (by exact hn)]
      exact h
    · rw [List.find?_cons_of_neg (by exact hn)] at h
      by_cases hact : n.active
      · rw [List.filter_cons_of_pos hact, List.find?_cons_of_neg (by exact hn)]
        exact find_filter_active h
      · rw [List.filter_cons_of_neg hact]
        exact find_filter_active h

theorem serverIsActive_faultServer (hb : b ≠ a) (h : hs.serverIsActive b) :
    (hs.faultServer ct a).1.serverIsActive b := by
  unfold faultServer
  split_ifs
  · unfold serverIsActive
    simp only []
    rwa [find_setActive_ne hb]
  · exact h

theorem serverIsActive_recoverServer (h : hs.serverIsActive b) :
    (hs.recoverServer ct a).1.serverIsActive b := by
  unfold recoverServer
  split_ifs with ha
  · unfold serverIsActive
    simp only []
    by_cases hb : b = a
    · rw [hb, find_setActive_self ha]
      rfl
    · rwa [find_setActive_ne hb]
  · exact h

theorem serverIsActive_recoverServer_self (ha : hs.serverIsInclude a) :
    (hs.recoverServer ct a).1.serverIsActive a := by
  unfold recoverServer
  rw [if_pos ha]
  unfold serverIsActive
  simp only []
  rw [find_setActive_self ha]
  rfl

theorem serverIsActive_addServer (h : hs.serverIsActive b) :
    (hs.addServer hash ct a).serverIsActive b := by
  unfold serverIsActive addServer at *
  simp only [List.find?_append]
  cases hf : hs.nodes.find? (·.addr == b) with
  | none => simp [hf] at h
  | some n =>
    rw [hf] at h
    exact h

theorem serverIsActive_addServer_self (ha : ¬ hs.serverIsInclude a) :
    (hs.addServer hash ct a).serverIsActive a := by
  have hf : hs.nodes.find? (·.addr == a) = none := by
    rw [List.find?_eq_none]
    intro n hn hna
    exact ha (List.any_eq_true.2 ⟨n, hn, hna⟩)
  unfold serverIsActive addServer
  simp [List.find?_append, hf]

theorem serverIsActive_removeFaultServers (h : hs.serverIsActive b) :
    (hs.removeFaultServers hash ct).1.serverIsActive b := by
  unfold removeFaultServers
  split_ifs
  · exact find_filter_active h
  · exact h

end HashSpace

/-! ## One manager -/

namespace Manager

variable {hash : Bytes → UInt64} {m m' : Manager} {b : Address}

/-- The server is joined, or it waits in `new_servers`. -/
def Known (m : Manager) (b : Address) : Prop := m.whs.serverIsActive b ∨ b ∈ m.liveNewServers

instance (m : Manager) (b : Address) : Decidable (m.Known b) := inferInstanceAs (Decidable (_ ∨ _))

/-- Every connected server is joined or waits. -/
def NoneForgotten (m : Manager) : Prop := ∀ b ∈ m.nodes, m.Known b

instance (m : Manager) : Decidable m.NoneForgotten := inferInstanceAs (Decidable (∀ b ∈ _, _))

/-- `HashSpaceSync` takes the partner's `whs`. -/
def takesWhs (m : Manager) (wseed : Seed) : Bool :=
  !wseed.empty && (m.whs.empty || m.whs.clocktime ≤ wseed.clocktime)

theorem mem_liveNewServers : b ∈ m.liveNewServers ↔ ⟨b, false⟩ ∈ m.newServers := by
  simp only [liveNewServers, List.mem_map, List.mem_filter, Bool.not_eq_true']
  constructor
  · rintro ⟨⟨a, e⟩, ⟨hn, rfl⟩, rfl⟩
    exact hn
  · exact fun h => ⟨_, ⟨h, rfl⟩, rfl⟩

theorem Known.congr (h : m.Known b) (hw : m'.whs = m.whs) (hn : m'.newServers = m.newServers) :
    m'.Known b := by
  unfold Known liveNewServers at *
  rwa [hw, hn]

theorem NoneForgotten.congr (h : m.NoneForgotten) (hs : m'.nodes = m.nodes) (hw : m'.whs = m.whs)
    (hn : m'.newServers = m.newServers) : m'.NoneForgotten :=
  fun b hb => (h b (hs ▸ hb)).congr hw hn

theorem NoneForgotten.syncHashSpacePartner (h : m.NoneForgotten) :
    m.syncHashSpacePartner.1.NoneForgotten := by
  obtain ⟨c, hc⟩ := syncHashSpacePartner_eq (m := m)
  rw [hc]
  exact h.congr rfl rfl rfl

theorem serverIsActive_attachAll {ct : ClockTime} : ∀ {ns : List WeakNode} {whs : HashSpace},
    whs.serverIsActive b → (attachAll hash ct whs ns).serverIsActive b
  | [], _, h => h
  | n :: ns, whs, h => by
    unfold attachAll
    split_ifs
    · exact serverIsActive_attachAll h
    · exact serverIsActive_attachAll (HashSpace.serverIsActive_recoverServer h)
    · exact serverIsActive_attachAll (HashSpace.serverIsActive_addServer h)

/-- The loop joins every server that is still there. -/
theorem serverIsActive_attachAll_new {ct : ClockTime} : ∀ {ns : List WeakNode} {whs : HashSpace},
    ⟨b, false⟩ ∈ ns → (attachAll hash ct whs ns).serverIsActive b
  | [], _, h => absurd h List.not_mem_nil
  | n :: ns, whs, h => by
    unfold attachAll
    rcases List.mem_cons.1 h with rfl | h
    · rw [if_neg (by simp)]
      split_ifs with hi
      · exact serverIsActive_attachAll (HashSpace.serverIsActive_recoverServer_self hi)
      · exact serverIsActive_attachAll (HashSpace.serverIsActive_addServer_self hi)
    · split_ifs
      · exact serverIsActive_attachAll_new h
      · exact serverIsActive_attachAll_new h
      · exact serverIsActive_attachAll_new h

theorem NoneForgotten.addServer (h : m.NoneForgotten) (a : Address) :
    (m.addServer a).NoneForgotten := by
  have hmem : ∀ {b}, b ∈ (if a ∈ m.nodes then m.nodes else m.nodes ++ [a]) →
      b ∈ m.nodes ∨ b = a := by
    intro b hb
    split_ifs at hb
    · exact .inl hb
    · simpa using hb
  unfold Manager.addServer
  generalize (if a ∈ m.nodes then m.nodes else m.nodes ++ [a]) = ns at hmem
  have hnew : ∀ m' : Manager, m'.nodes = ns → m'.whs = m.whs →
      m'.newServers = m.newServers ++ [⟨a, false⟩] → m'.NoneForgotten := by
    intro m' hs hw hn b hb
    rw [hs] at hb
    rcases hmem hb with hb | rfl
    · refine (h b hb).imp (fun hb => ?_) fun hb => ?_
      · rwa [hw]
      · rw [mem_liveNewServers, hn]
        exact List.mem_append_left _ (mem_liveNewServers.1 hb)
    · right
      rw [mem_liveNewServers, hn]
      exact List.mem_append_right _ List.mem_cons_self
  simp only []
  split_ifs with hact
  · intro b hb
    rcases hmem hb with hb | rfl
    · exact (h b hb).congr rfl rfl
    · exact .inl hact
  · exact hnew _ rfl rfl rfl
  · exact hnew _ rfl rfl rfl

theorem NoneForgotten.removeServer (h : m.NoneForgotten) (a : Address) :
    (m.removeServer a).NoneForgotten :=
  fun b hb => (h b (List.mem_of_mem_filter hb)).congr rfl rfl

theorem NoneForgotten.attachNewServers (h : m.NoneForgotten) :
    (m.attachNewServers hash).1.NoneForgotten := by
  refine NoneForgotten.syncHashSpacePartner fun b hb => .inl ?_
  rcases h b hb with hb | hb
  · exact serverIsActive_attachAll hb
  · exact serverIsActive_attachAll_new (mem_liveNewServers.1 hb)

theorem NoneForgotten.detachFaultServers (h : m.NoneForgotten) :
    (m.detachFaultServers hash).1.NoneForgotten := by
  refine NoneForgotten.syncHashSpacePartner fun b hb => ?_
  exact (h b hb).imp_left HashSpace.serverIsActive_removeFaultServers

theorem NoneForgotten.attachDetach (h : m.NoneForgotten) :
    (andThen (m.attachNewServers hash) (Manager.detachFaultServers hash)).1.NoneForgotten :=
  h.attachNewServers.detachFaultServers

theorem NoneForgotten.startReplace (h : m.NoneForgotten) (full : Bool) :
    (m.startReplace full).1.NoneForgotten :=
  h.congr rfl rfl rfl

theorem NoneForgotten.delegateReplace (h : m.NoneForgotten) :
    m.delegateReplace.1.NoneForgotten :=
  h.congr rfl rfl rfl

theorem NoneForgotten.replaceElection (h : m.NoneForgotten) :
    (m.replaceElection hash).1.NoneForgotten := by
  have h' := @NoneForgotten.attachDetach hash m h
  unfold Manager.replaceElection
  generalize andThen (m.attachNewServers hash) (Manager.detachFaultServers hash) = r at h'
  simp only []
  split_ifs
  · exact h'.delegateReplace
  · exact h'.startReplace false

theorem NoneForgotten.casCheckedReplaceElection (h : m.NoneForgotten) (cas : UInt32) :
    (m.casCheckedReplaceElection hash cas).1.NoneForgotten := by
  unfold Manager.casCheckedReplaceElection
  split_ifs
  · exact h.replaceElection
  · exact h

theorem NoneForgotten.onReplaceElection (h : m.NoneForgotten) (hsseed : Seed)
    (adjustClock : UInt32) : (m.onReplaceElection hash hsseed adjustClock).1.1.NoneForgotten := by
  have h' : (m.clockUpdate adjustClock).NoneForgotten := h.congr rfl rfl rfl
  unfold Manager.onReplaceElection
  simp only []
  split_ifs
  · exact h'
  · exact h'
  · exact h'
  · exact h'.attachDetach.startReplace false

theorem NoneForgotten.onElectionResult (h : m.NoneForgotten) (call : ℕ) (res : Option Bool) :
    (m.onElectionResult call res).1.NoneForgotten := by
  unfold Manager.onElectionResult
  simp only []
  split_ifs
  · exact h.congr rfl rfl rfl
  · exact h.congr rfl rfl rfl

theorem NoneForgotten.controlAttach (h : m.NoneForgotten) (replace : Bool) :
    (m.controlAttach hash replace).1.NoneForgotten := by
  unfold Manager.controlAttach
  split_ifs
  · exact h.attachNewServers.startReplace false
  · exact h.attachNewServers

theorem NoneForgotten.controlDetach (h : m.NoneForgotten) (replace : Bool) :
    (m.controlDetach hash replace).1.NoneForgotten := by
  unfold Manager.controlDetach
  split_ifs
  · exact h.detachFaultServers.startReplace false
  · exact h.detachFaultServers

theorem NoneForgotten.setAutoReplace (h : m.NoneForgotten) (enable : Bool) :
    (m.setAutoReplace hash enable).1.NoneForgotten := by
  unfold Manager.setAutoReplace
  split_ifs
  · exact h.congr rfl rfl rfl
  · exact NoneForgotten.attachDetach (m := { m with autoReplace := true }) (h.congr rfl rfl rfl)
  · exact h

theorem NoneForgotten.replaceCopyEnd (h : m.NoneForgotten) (replaceTime : ClockTime)
    (adjustClock : UInt32) (a : Address) :
    (m.replaceCopyEnd replaceTime adjustClock a).1.NoneForgotten := by
  unfold Manager.replaceCopyEnd
  simp only []
  split_ifs
  · exact h.congr rfl rfl rfl
  · exact h.congr rfl rfl rfl

theorem NoneForgotten.publish (h : m.NoneForgotten) : m.publish.1.NoneForgotten :=
  NoneForgotten.syncHashSpacePartner (m := { m with rhs := m.whs, finishing := false })
    (h.congr rfl rfl rfl)

/-- A loss is forgotten about only where the server is not there. -/
theorem NoneForgotten.removeServerLocked (h : m.NoneForgotten) {a : Address} (ct : ClockTime)
    (ha : a ∉ m.nodes) : (m.removeServerLocked a ct).1.NoneForgotten := by
  obtain ⟨c, hc⟩ := faultServer_eq ct a { m with removing := m.removing.erase (a, ct) }
  have hb : ∀ m' : Manager, m'.nodes = m.nodes → m'.whs = (m.whs.faultServer ct a).1 →
      m'.newServers = m.newServers.filter (fun n => !n.expired && n.addr ≠ a) →
      m'.NoneForgotten := by
    intro m' hs hw hn b hb
    rw [hs] at hb
    have hba : b ≠ a := fun e => ha (e ▸ hb)
    refine (h b hb).imp (fun hb => ?_) fun hb => ?_
    · rw [hw]
      exact HashSpace.serverIsActive_faultServer hba hb
    · rw [mem_liveNewServers, hn]
      exact List.mem_filter.2 ⟨mem_liveNewServers.1 hb, by simpa using hba⟩
  unfold Manager.removeServerLocked andThen
  simp only [hc]
  split_ifs
  · exact hb _ rfl rfl rfl
  · exact hb _ rfl rfl rfl

theorem NoneForgotten.hashSpaceSync (h : m.NoneForgotten) {wseed rseed : Seed}
    {adjustClock : UInt32} (hg : m.takesWhs wseed → ∀ b ∈ m.nodes, m.whs.serverIsActive b →
      (HashSpace.ofSeed hash wseed).serverIsActive b ∨ b ∈ m.liveNewServers) :
    (m.hashSpaceSync hash wseed rseed adjustClock).NoneForgotten := by
  intro b hb
  have hw : (m.hashSpaceSync hash wseed rseed adjustClock).whs =
      if m.takesWhs wseed then .ofSeed hash wseed else m.whs := rfl
  -- a server that waited is joined now or waits still
  have hnew : b ∈ m.liveNewServers → (m.hashSpaceSync hash wseed rseed adjustClock).Known b := by
    intro hb'
    by_cases hact : (m.hashSpaceSync hash wseed rseed adjustClock).whs.serverIsActive b
    · exact .inl hact
    · right
      rw [mem_liveNewServers]
      refine List.mem_filter.2 ⟨mem_liveNewServers.1 hb', ?_⟩
      rw [Bool.not_eq_true] at hact
      exact Bool.and_eq_true_iff.2 ⟨rfl, congrArg (!·) hact⟩
  rcases h b hb with hact | hb'
  · by_cases ha : m.takesWhs wseed
    · rcases hg ha b hb hact with hact | hb'
      · left
        rwa [hw, if_pos ha]
      · exact hnew hb'
    · left
      rwa [hw, if_neg ha]
  · exact hnew hb'

theorem NoneForgotten.expire (h : m.NoneForgotten) {k : ℕ}
    (hg : ∀ n, m.newServers[k]? = some n → n.addr ∈ m.nodes →
      m.whs.serverIsActive n.addr ∨ ⟨n.addr, false⟩ ∈ m.newServers.eraseIdx k) :
    ({ m with newServers := m.newServers.modify k ({ · with expired := true }) } :
      Manager).NoneForgotten := by
  intro b hb
  have hkeep : ⟨b, false⟩ ∈ m.newServers.eraseIdx k →
      ⟨b, false⟩ ∈ m.newServers.modify k ({ · with expired := true }) := by
    intro hn
    obtain ⟨j, hj, hget⟩ := List.mem_eraseIdx_iff_getElem?.1 hn
    refine List.mem_of_getElem? (i := j) ?_
    rw [List.getElem?_modify, hget]
    simp [hj.symm]
  rcases h b hb with hact | hn
  · exact .inl hact
  · obtain ⟨j, hget⟩ := List.mem_iff_getElem?.1 (mem_liveNewServers.1 hn)
    by_cases hj : j = k
    · subst hj
      exact (hg _ hget hb).imp_right fun hn => mem_liveNewServers.2 (hkeep hn)
    · exact .inr (mem_liveNewServers.2 (hkeep (List.mem_eraseIdx_iff_getElem?.2 ⟨j, hj, hget⟩)))

end Manager

/-! ## Two managers -/

namespace Managers

open Manager

variable {hash : Bytes → UInt64} {s t : Managers} {a : Act}

/-- The hash space that a message makes the receiver's `whs`, if it does. -/
def adopted (s : Managers) (i : Bool) (k : ℕ) : Option Seed :=
  match (s.inbox i)[k]? with
  | some (.hashSpaceSync wseed _ _) =>
    if (s.mgr !i).addr = (s.mgr i).partner ∧ (s.mgr i).takesWhs wseed then some wseed else none
  | _ => none

/-- The steps after which no connected server is unknown: a loss does not come to `hs_mutex` when
the server is back; in the partner's hash space, if it is taken, the servers that are connected here
and joined are active; a node that waits is not gone while the server is connected. -/
def KeepsKnown (hash : Bytes → UInt64) (s : Managers) : Act → Prop
  | .removeLocked i a _ => a ∉ (s.mgr i).nodes
  | .deliver i k => ∀ wseed ∈ s.adopted i k, ∀ b ∈ (s.mgr i).nodes, (s.mgr i).whs.serverIsActive b →
      (HashSpace.ofSeed hash wseed).serverIsActive b ∨ b ∈ (s.mgr i).liveNewServers
  | .expire i k => ∀ n ∈ (s.mgr i).newServers[k]?, n.addr ∈ (s.mgr i).nodes →
      (s.mgr i).whs.serverIsActive n.addr ∨ ⟨n.addr, false⟩ ∈ (s.mgr i).newServers.eraseIdx k
  | _ => True

instance : DecidablePred (KeepsKnown hash s)
  | .removeLocked .. => inferInstanceAs (Decidable (_ ∉ _))
  | .deliver i k => inferInstanceAs (Decidable (∀ wseed ∈ s.adopted i k, ∀ b ∈ (s.mgr i).nodes, _))
  | .expire i k => inferInstanceAs (Decidable (∀ n ∈ (s.mgr i).newServers[k]?, _))
  | .connect .. | .lost .. | .invalidate .. | .fire .. | .partnerConnected ..
  | .electionFailed .. | .attach .. | .detach .. | .setAutoReplace .. | .startReplace ..
  | .copyEnd .. | .publish .. | .deleteEnd .. | .clockUpdate .. | .keepAlive .. | .time .. =>
    inferInstanceAs (Decidable True)

theorem noneForgotten_handled (hs : ∀ i, (s.mgr i).NoneForgotten) (hg : KeepsKnown hash s a) :
    (s.handled hash a).1.NoneForgotten := by
  cases a with
  | connect i a => exact (hs i).addServer a
  | lost i a => exact (hs i).removeServer a
  | removeLocked i a ct => exact (hs i).removeServerLocked ct hg
  | invalidate i => exact (hs i).congr rfl rfl rfl
  | fire i cas =>
    exact NoneForgotten.casCheckedReplaceElection
      (m := { s.mgr i with timers := (s.mgr i).timers.erase cas }) ((hs i).congr rfl rfl rfl) cas
  | partnerConnected i => exact (hs i).syncHashSpacePartner
  | deliver i k =>
    simp only [handled]
    cases hk : (s.inbox i)[k]? with
    | none => exact hs i
    | some msg =>
      cases msg with
      | hashSpaceSync wseed rseed adjustClock =>
        simp only [Option.elim, handle]
        split_ifs with hp
        · exact hs i
        · refine (hs i).hashSpaceSync fun ha => hg wseed ?_
          simp only [adopted, hk, if_pos (And.intro (not_not.1 hp) ha), Option.mem_some_iff]
      | replaceElection call hsseed adjustClock =>
        simp only [Option.elim, handle]
        split_ifs with hp
        · exact hs i
        · exact (hs i).onReplaceElection hsseed adjustClock
      | replaceElectionResult call res =>
        simp only [Option.elim, handle]
        split_ifs with hc
        · exact (hs i).onElectionResult call res
        · exact hs i
  | electionFailed i call => exact (hs i).onElectionResult call none
  | attach i replace => exact (hs i).controlAttach replace
  | detach i replace => exact (hs i).controlDetach replace
  | setAutoReplace i enable => exact (hs i).setAutoReplace enable
  | startReplace i full => exact (hs i).startReplace full
  | copyEnd i replaceTime adjustClock b => exact (hs i).replaceCopyEnd replaceTime adjustClock b
  | publish i => exact (hs i).publish
  | deleteEnd i replaceTime adjustClock b => exact (hs i).congr rfl rfl rfl
  | clockUpdate i c => exact (hs i).congr rfl rfl rfl
  | keepAlive i => exact (hs i).congr rfl rfl rfl
  | time i t => exact (hs i).congr rfl rfl rfl
  | expire i k =>
    exact (hs i).expire fun n hn hb => hg n hn hb

theorem noneForgotten_step (hs : ∀ i, (s.mgr i).NoneForgotten) (hg : KeepsKnown hash s a)
    (h : step hash s a = some t) (i : Bool) : (t.mgr i).NoneForgotten := by
  have ht := stepped_of_step h
  rcases who_or a i with rfl | rfl
  · rw [ht.mgr]
    exact noneForgotten_handled hs hg
  · rw [ht.mgrOther]
    exact hs _

/-- In every state that such steps reach, a connected server is joined or waits to be. -/
theorem noneForgotten_of_run {addr partner : Bool → Address} {clock : Bool → ClockLogic}
    {auto : Bool → Bool} {as : List Act}
    (h : Machine.Run (step hash) (KeepsKnown hash) (init addr partner clock auto) as s) (i : Bool) :
    (s.mgr i).NoneForgotten := by
  have hinv : ∀ i, (s.mgr i).NoneForgotten :=
    h.inv (I := fun s => ∀ i, (s.mgr i).NoneForgotten)
      (fun _ _ _ hs hg ht => noneForgotten_step hs hg ht) fun _ b hb => absurd hb List.not_mem_nil
  exact hinv i

/-! Both managers have a server; it comes back to the one that lost it, or the loss goes on to the
other, which has it still. -/

section Sample

open Sample

def joinedRun : List Act :=
  [.connect false (svr 1), .connect true (svr 1), .connect false (svr 2), .connect true (svr 2),
    .fire false 2, .deliver true 0, .deliver true 0, .lost true (svr 1),
    .removeLocked true (svr 1) (.mk' 4 1000)]

theorem noneForgotten_backRun : ∃ s, Machine.Run (step zeroHash) (KeepsKnown zeroHash) pair
    (joinedRun ++ [.connect true (svr 1)]) s ∧ (s.mgr true).nodes = [svr 2, svr 1] ∧
      (s.mgr true).NoneForgotten := by
  have h : Machine.Run (step zeroHash) (KeepsKnown zeroHash) pair
      (joinedRun ++ [.connect true (svr 1)]) _ := Machine.execIf_run rfl
  exact ⟨_, h, by decide, noneForgotten_of_run h true⟩

theorem not_noneForgotten_partnerLoss : ∃ s, Machine.Run (step zeroHash) Machine.Free pair
    (joinedRun ++ [.deliver false 0]) s ∧ ¬ (s.mgr false).NoneForgotten := by
  refine ⟨_, Machine.exec_run rfl, ?_⟩
  decide

end Sample

end Managers

end Kumofs
