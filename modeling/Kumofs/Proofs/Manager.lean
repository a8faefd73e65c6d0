import Kumofs.Proofs.Hash
import Kumofs.System.Managers

/-!
# What a manager's handlers change

Each handler as an update of the manager's record, and the hash spaces it sends the partner. The
clock of the result is not said: no handler reads it again but through `nextClocktime`.
-/

namespace Kumofs

namespace HashSpace

variable {hash : Bytes → UInt64} {hs : HashSpace} {ct : ClockTime} {a b : Address}

theorem mem_setActive_false : ∀ {ns : List Node}, ⟨b, true⟩ ∈ setActive a false ns →
    (⟨b, true⟩ : Node) ∈ ns
  | [], h => h
  | n :: ns, h => by
    unfold setActive at h
    split_ifs at h with hn
    · rcases List.mem_cons.1 h with h | h
      · simp at h
      · exact List.mem_cons_of_mem _ h
    · rcases List.mem_cons.1 h with h | h
      · exact h ▸ List.mem_cons_self
      · exact List.mem_cons_of_mem _ (mem_setActive_false h)

theorem mem_setActive_true : ∀ {ns : List Node}, ⟨b, true⟩ ∈ setActive a true ns →
    (⟨b, true⟩ : Node) ∈ ns ∨ b = a
  | [], h => .inl h
  | n :: ns, h => by
    unfold setActive at h
    split_ifs at h with hn
    · rcases List.mem_cons.1 h with h | h
      · simp only [Node.mk.injEq, and_true] at h
        exact .inr (h.trans (by simpa using hn))
      · exact .inl (List.mem_cons_of_mem _ h)
    · rcases List.mem_cons.1 h with h | h
      · exact .inl (h ▸ List.mem_cons_self)
      · exact (mem_setActive_true h).imp_left (List.mem_cons_of_mem _)

theorem faultServer_active (h : b ∈ (hs.faultServer ct a).1.getActiveNodes) :
    b ∈ hs.getActiveNodes := by
  rw [mem_getActiveNodes] at h ⊢
  unfold faultServer at h
  split_ifs at h
  · exact mem_setActive_false h
  · exact h

theorem recoverServer_active (h : b ∈ (hs.recoverServer ct a).1.getActiveNodes) :
    b ∈ hs.getActiveNodes ∨ b = a := by
  rw [mem_getActiveNodes] at h ⊢
  unfold recoverServer at h
  split_ifs at h
  · exact mem_setActive_true h
  · exact .inl h

theorem addServer_active (h : b ∈ (hs.addServer hash ct a).getActiveNodes) :
    b ∈ hs.getActiveNodes ∨ b = a := by
  rw [mem_getActiveNodes] at h ⊢
  simpa [addServer] using h

theorem removeFaultServers_active (h : b ∈ (hs.removeFaultServers hash ct).1.getActiveNodes) :
    b ∈ hs.getActiveNodes := by
  rw [mem_getActiveNodes] at h ⊢
  unfold removeFaultServers at h
  split_ifs at h
  · exact List.mem_of_mem_filter h
  · exact h

/-- A hash space that changes is stamped. -/
theorem faultServer_cases (hs : HashSpace) (ct : ClockTime) (a : Address) :
    (hs.faultServer ct a).1 = hs ∧ ¬ hs.serverIsInclude a ∨
    (hs.faultServer ct a).1.seed = ⟨setActive a false hs.nodes, ct⟩ ∧ hs.serverIsInclude a := by
  unfold faultServer
  split_ifs with h
  · exact .inr ⟨rfl, h⟩
  · exact .inl ⟨rfl, h⟩

theorem removeFaultServers_cases (hash : Bytes → UInt64) (hs : HashSpace) (ct : ClockTime) :
    (hs.removeFaultServers hash ct).1 = hs ∨
    (hs.removeFaultServers hash ct).1.clocktime = ct := by
  unfold removeFaultServers
  split_ifs
  · exact .inr rfl
  · exact .inl rfl

theorem recoverServer_cases : (hs.recoverServer ct a).1 = hs ∨
    (hs.recoverServer ct a).1.clocktime = ct := by
  unfold recoverServer
  split_ifs
  · exact .inr rfl
  · exact .inl rfl

end HashSpace

namespace Manager

open Managers

variable {hash : Bytes → UInt64} {m : Manager}

/-- The servers of `new_servers` that are still there. -/
def liveNewServers (m : Manager) : List Address :=
  (m.newServers.filter (!·.expired)).map (·.addr)

def seeds (m : Manager) : List Seed := [m.whs.seed, m.rhs.seed]

end Manager

/-- The hash spaces a message offers its receiver. -/
def PartnerMsg.seeds : PartnerMsg → List Seed
  | .hashSpaceSync wseed rseed _ => [wseed, rseed]
  | _ => []

/-- The hash spaces sent to the partner. -/
def outSeeds (outs : List Out) : List Seed := (Managers.partnerMsgs outs).flatMap (·.seeds)

/-- The `Seed`s of the `ReplaceCopyStart`s sent, the last first. -/
def copyStarts (outs : List Out) : List Seed :=
  (Managers.serverMsgs outs).reverse.filterMap Managers.copyStart?

theorem outSeeds_append (o o' : List Out) : outSeeds (o ++ o') = outSeeds o ++ outSeeds o' := by
  simp [outSeeds, Managers.partnerMsgs]

theorem copyStarts_append (o o' : List Out) :
    copyStarts (o ++ o') = copyStarts o' ++ copyStarts o := by
  simp [copyStarts, Managers.serverMsgs]

namespace Manager

open Managers

variable {hash : Bytes → UInt64} {m : Manager}

/-! ## The loop over the new servers -/

theorem attachAll_cases (hash : Bytes → UInt64) (ct : ClockTime) :
    ∀ (ns : List WeakNode) (whs : HashSpace),
    attachAll hash ct whs ns = whs ∨ (attachAll hash ct whs ns).clocktime = ct
  | [], _ => .inl rfl
  | n :: ns, whs => by
    unfold attachAll
    split_ifs
    · exact attachAll_cases hash ct ns whs
    · rcases attachAll_cases hash ct ns (whs.recoverServer ct n.addr).1 with h | h
      · rw [h]
        exact HashSpace.recoverServer_cases
      · exact .inr h
    · rcases attachAll_cases hash ct ns (whs.addServer hash ct n.addr) with h | h
      · rw [h]
        exact .inr rfl
      · exact .inr h

theorem attachAll_active {ct : ClockTime} {b : Address} : ∀ {ns : List WeakNode} {whs : HashSpace},
    b ∈ (attachAll hash ct whs ns).getActiveNodes →
    b ∈ whs.getActiveNodes ∨ b ∈ (ns.filter (!·.expired)).map (·.addr)
  | [], _, h => .inl h
  | n :: ns, whs, h => by
    unfold attachAll at h
    have hcons : ∀ {c}, c ∈ (ns.filter (!·.expired)).map (·.addr) →
        c ∈ ((n :: ns).filter (!·.expired)).map (·.addr) := fun hc => by
      obtain ⟨x, hx, rfl⟩ := List.mem_map.1 hc
      rw [List.mem_filter] at hx
      exact List.mem_map.2 ⟨x, List.mem_filter.2 ⟨List.mem_cons_of_mem _ hx.1, hx.2⟩, rfl⟩
    have hself : n.expired = false → n.addr ∈ ((n :: ns).filter (!·.expired)).map (·.addr) :=
      fun hn => List.mem_map.2 ⟨n, List.mem_filter.2 ⟨List.mem_cons_self, by simp [hn]⟩, rfl⟩
    split_ifs at h with he hi
    · exact (attachAll_active h).imp_right hcons
    · rcases attachAll_active h with h | h
      · rcases HashSpace.recoverServer_active h with h | rfl
        · exact .inl h
        · exact .inr (hself (by simpa using he))
      · exact .inr (hcons h)
    · rcases attachAll_active h with h | h
      · rcases HashSpace.addServer_active h with h | rfl
        · exact .inl h
        · exact .inr (hself (by simpa using he))
      · exact .inr (hcons h)

/-! ## The handlers as updates -/

theorem syncHashSpacePartner_eq : ∃ c, m.syncHashSpacePartner.1 = { m with clock := c } := by
  unfold syncHashSpacePartner
  split_ifs
  · exact ⟨_, rfl⟩
  · exact ⟨_, rfl⟩

theorem attachNewServers_eq (hash : Bytes → UInt64) (m : Manager) :
    ∃ c, (attachNewServers hash m).1 =
    { m with
      clock := c
      whs := attachAll hash m.nextClocktime m.whs m.newServers
      newServers := [] } := by
  obtain ⟨c, hc⟩ := syncHashSpacePartner_eq (m :=
    { m.clockIncr with whs := attachAll hash m.nextClocktime m.whs m.newServers, newServers := [] })
  exact ⟨c, hc⟩

theorem detachFaultServers_eq (hash : Bytes → UInt64) (m : Manager) :
    ∃ c, (detachFaultServers hash m).1 =
    { m with clock := c, whs := (m.whs.removeFaultServers hash m.nextClocktime).1 } := by
  obtain ⟨c, hc⟩ := syncHashSpacePartner_eq (m :=
    { m.clockIncr with whs := (m.whs.removeFaultServers hash m.nextClocktime).1 })
  exact ⟨c, hc⟩

theorem faultServer_eq (ct : ClockTime) (a : Address) (m : Manager) : ∃ c, (faultServer ct a m).1 =
    { m with clock := c, whs := (m.whs.faultServer ct a).1, rhs := (m.rhs.faultServer ct a).1 } := by
  unfold faultServer
  simp only []
  split_ifs
  · obtain ⟨c, hc⟩ := syncHashSpacePartner_eq (m :=
      { m with whs := (m.whs.faultServer ct a).1, rhs := (m.rhs.faultServer ct a).1 })
    simp only [andThen, pushHashSpaceClients, syncHashSpaceServers, hc]
    exact ⟨_, rfl⟩
  · exact ⟨_, rfl⟩

theorem addServer_seeds {a : Address} : (m.addServer a).seeds = m.seeds := by
  unfold addServer
  simp only []
  split_ifs
  all_goals rfl

theorem publish_rhs : m.publish.1.rhs = m.whs := by
  obtain ⟨c, hc⟩ := syncHashSpacePartner_eq (m := { m with rhs := m.whs, finishing := false })
  exact congrArg Manager.rhs hc

/-! ## What they send -/

theorem syncHashSpacePartner_outSeeds {x : Seed} (h : x ∈ outSeeds m.syncHashSpacePartner.2) :
    x ∈ m.seeds := by
  unfold syncHashSpacePartner at h
  split_ifs at h
  · simpa [outSeeds, partnerMsgs, PartnerMsg.seeds, seeds] using h
  · simp [outSeeds, partnerMsgs] at h

theorem syncHashSpacePartner_copyStarts : copyStarts m.syncHashSpacePartner.2 = [] := by
  unfold syncHashSpacePartner
  split_ifs
  · rfl
  · rfl

theorem faultServer_copyStarts {ct : ClockTime} {a : Address} :
    copyStarts (faultServer ct a m).2 = [] := by
  unfold faultServer
  simp only []
  split_ifs
  · simp only [andThen, copyStarts_append, syncHashSpacePartner_copyStarts]
    rfl
  · rfl

theorem faultServer_outSeeds {ct : ClockTime} {a : Address} {x : Seed}
    (h : x ∈ outSeeds (faultServer ct a m).2) :
    x = (m.whs.faultServer ct a).1.seed ∨ x = (m.rhs.faultServer ct a).1.seed := by
  unfold faultServer at h
  simp only [] at h
  split_ifs at h
  · simp only [andThen, outSeeds_append, List.mem_append] at h
    rcases h with (h | h) | h
    · simpa [seeds] using syncHashSpacePartner_outSeeds h
    · simp [syncHashSpaceServers, outSeeds, partnerMsgs] at h
    · simp [pushHashSpaceClients, outSeeds, partnerMsgs] at h
  · simp [outSeeds, partnerMsgs] at h

end Manager

/-! ## The end of a handler -/

namespace Managers

variable {s t : Managers} {i j : Bool} {r : Manager × List Out}

theorem finish_eq (h : s.finish i r = some t) :
    t.mgr = Function.update s.mgr i r.1 ∧
      t.inbox = Function.update s.inbox (!i) (s.inbox (!i) ++
        if (s.mgr i).partner = (s.mgr !i).addr then partnerMsgs r.2 else []) ∧
      t.log = Function.update s.log i ((serverMsgs r.2).reverse ++ s.log i) := by
  unfold finish at h
  by_cases h0 : (s.mgr i).finishing ∧ (serverMsgs r.2).any (copyStart? · |>.isSome)
  · rw [if_pos h0] at h
    cases h
  · rw [if_neg h0] at h
    cases h
    exact ⟨rfl, rfl, rfl⟩

theorem finish_mgr (h : s.finish i r = some t) : t.mgr i = r.1 := by
  rw [(finish_eq h).1, Function.update_self]

theorem finish_mgr_ne (h : s.finish i r = some t) (hj : j ≠ i) : t.mgr j = s.mgr j := by
  rw [(finish_eq h).1, Function.update_of_ne hj]

theorem finish_inbox (h : s.finish i r = some t) {msg : PartnerMsg} (hm : msg ∈ t.inbox j) :
    msg ∈ s.inbox j ∨ msg ∈ partnerMsgs r.2 := by
  rw [(finish_eq h).2.1] at hm
  by_cases hj : j = !i
  · rw [hj, Function.update_self, List.mem_append] at hm
    rw [hj]
    refine hm.imp_right fun hm => ?_
    split_ifs at hm
    · exact hm
    · exact absurd hm List.not_mem_nil
  · rw [Function.update_of_ne hj] at hm
    exact .inl hm

end Managers

end Kumofs
