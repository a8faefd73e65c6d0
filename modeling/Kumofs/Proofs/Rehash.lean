import Kumofs.Proofs.Addresses
import Kumofs.Proofs.Movement

/-!
# The ring and the node list it is made from

`add_server` appends to the ring and sorts it again, the two `remove` calls build it anew; either
way it is the ring that `rehash` makes of the node list. `fault_server` and `recover_server` change
a flag of the node list only, so after a call that really changes one, the ring still has the old
flag, and whoever builds a hash space from the seed has another ring than the sender.
-/

namespace Kumofs.HashSpace

open Machine

section Follows

variable {hash : Bytes → UInt64} {hs hs' : HashSpace} {m : Mutation} {a : Address}

/-- The ring is the one `rehash` builds from the nodes, so that every hash is found and assigned as
it is at a receiver of the seed. -/
def RingFollows (hash : Bytes → UInt64) (hs : HashSpace) : Prop :=
  hs.hashspace = rehash hash hs.nodes ∧
    ∀ h, hs.hashspace[hs.find h]? =
        (ofSeed hash hs.seed).hashspace[(ofSeed hash hs.seed).find h]? ∧
      hs.eachAssign h = (ofSeed hash hs.seed).eachAssign h

/-- A fault or recovery finds the flag as it sets it, or no such node. -/
def KeepsFlags (hs : HashSpace) : Mutation → Prop
  | .faultServer _ a => ∀ n ∈ hs.nodes, n.addr = a → n.active = false
  | .recoverServer _ a => ∀ n ∈ hs.nodes, n.addr = a → n.active = true
  | _ => True

theorem ringFollows_iff : RingFollows hash hs ↔ hs.hashspace = rehash hash hs.nodes := by
  refine ⟨fun h => h.1, fun h => ⟨h, fun x => ?_⟩⟩
  have he : ofSeed hash hs.seed = hs := by
    unfold ofSeed seed
    simp only []
    rw [← h]
  rw [he]
  exact ⟨rfl, rfl⟩

/-! ## The calls that keep the ring up -/

theorem rehash_append (nodes : List Node) (n : Node) :
    rehash hash (nodes ++ [n]) = stableSort (addVirtualNodes hash (rehash hash nodes) n) := by
  unfold rehash addVirtualNodes
  rw [stableSort_append, List.foldl_append]
  rfl

theorem addServer_follows {ct : ClockTime} (h : hs.hashspace = rehash hash hs.nodes) :
    (addServer hash hs ct a).hashspace = rehash hash (addServer hash hs ct a).nodes := by
  unfold addServer
  simp only []
  rw [rehash_append, h]

theorem removeServer_follows {ct : ClockTime} (h : hs.hashspace = rehash hash hs.nodes) :
    (removeServer hash hs ct a).1.hashspace = rehash hash (removeServer hash hs ct a).1.nodes := by
  unfold removeServer
  split_ifs
  · rfl
  · exact h

theorem removeFaultServers_follows {ct : ClockTime} (h : hs.hashspace = rehash hash hs.nodes) :
    (removeFaultServers hash hs ct).1.hashspace =
      rehash hash (removeFaultServers hash hs ct).1.nodes := by
  unfold removeFaultServers
  split_ifs
  · rfl
  · exact h

/-! ## The calls that change a flag -/

theorem setActive_of_kept {b : Bool} : ∀ {nodes : List Node},
    (∀ n ∈ nodes, n.addr = a → n.active = b) → setActive a b nodes = nodes
  | [], _ => rfl
  | n :: nodes, h => by
    obtain ⟨hn, hrest⟩ := List.forall_mem_cons.1 h
    unfold setActive
    split_ifs with ha
    · rw [← hn (by simpa using ha)]
    · rw [setActive_of_kept hrest]

/-- The one node of that address has the flag that was set. -/
theorem active_of_mem_setActive {b : Bool} {n : Node} (ha : n.addr = a) :
    ∀ {nodes : List Node}, (nodes.map (·.addr)).Nodup → n ∈ setActive a b nodes → n.active = b
  | [], _, h => by simp [setActive] at h
  | x :: nodes, hd, h => by
    rw [List.map_cons, List.nodup_cons] at hd
    unfold setActive at h
    split_ifs at h with hx
    · rcases List.mem_cons.1 h with rfl | h
      · rfl
      · have hxa : x.addr = a := by simpa using hx
        exact absurd (List.mem_map.2 ⟨n, h, by rw [ha, hxa]⟩) hd.1
    · rcases List.mem_cons.1 h with rfl | h
      · simp [ha] at hx
      · exact active_of_mem_setActive ha hd.2 h

/-- A flag that changes leaves the ring behind: the old node is still on it. -/
theorem rehash_setActive_iff {b : Bool} {nodes : List Node} (hd : (nodes.map (·.addr)).Nodup) :
    rehash hash nodes = rehash hash (setActive a b nodes) ↔
      ∀ n ∈ nodes, n.addr = a → n.active = b := by
  refine ⟨fun h n hn ha => ?_, fun h => by rw [setActive_of_kept h]⟩
  obtain ⟨v, hv, rfl⟩ := List.mem_map.1 (mem_reals_of_mem (s := ⟨nodes, .zero⟩) hash hn)
  have hv' : v ∈ rehash hash (setActive a b nodes) := h ▸ hv
  exact active_of_mem_setActive ha hd (mem_rehash hash hv')

theorem faultServer_nodes (hs : HashSpace) (ct : ClockTime) (a : Address) :
    (hs.faultServer ct a).1.nodes = setActive a false hs.nodes ∧
      (hs.faultServer ct a).1.hashspace = hs.hashspace := by
  unfold faultServer
  split_ifs with hin
  · exact ⟨rfl, rfl⟩
  · have hno : ∀ n ∈ hs.nodes, n.addr = a → n.active = false := fun n hn ha =>
      absurd (List.any_eq_true.2 ⟨n, hn, by simpa using ha⟩) hin
    exact ⟨(setActive_of_kept hno).symm, rfl⟩

theorem recoverServer_nodes (hs : HashSpace) (ct : ClockTime) (a : Address) :
    (hs.recoverServer ct a).1.nodes = setActive a true hs.nodes ∧
      (hs.recoverServer ct a).1.hashspace = hs.hashspace := by
  unfold recoverServer
  split_ifs with hin
  · exact ⟨rfl, rfl⟩
  · have hno : ∀ n ∈ hs.nodes, n.addr = a → n.active = true := fun n hn ha =>
      absurd (List.any_eq_true.2 ⟨n, hn, by simpa using ha⟩) hin
    exact ⟨(setActive_of_kept hno).symm, rfl⟩

/-! ## A call and a sequence of them -/

theorem uniqueAddresses_removeServer {ct : ClockTime} (h : hs.seed.UniqueAddresses) :
    (removeServer hash hs ct a).1.seed.UniqueAddresses := by
  unfold removeServer
  split_ifs
  · exact h.sublist (List.eraseP_sublist.map _)
  · exact h

theorem mutate_uniqueAddresses (hd : hs.seed.UniqueAddresses) (h : mutate hash hs m = some hs') :
    hs'.seed.UniqueAddresses := by
  cases m with
  | addServer ct a =>
    simp only [mutate] at h
    split_ifs at h with hin
    cases h
    exact uniqueAddresses_addServer hd hin
  | removeServer ct a =>
    cases h
    exact uniqueAddresses_removeServer hd
  | faultServer ct a =>
    cases h
    exact uniqueAddresses_faultServer hd
  | recoverServer ct a =>
    cases h
    exact uniqueAddresses_recoverServer hd
  | removeFaultServers ct =>
    cases h
    exact uniqueAddresses_removeFaultServers hd

theorem mutate_follows_iff (hd : hs.seed.UniqueAddresses) (hf : hs.hashspace = rehash hash hs.nodes)
    (h : mutate hash hs m = some hs') :
    hs'.hashspace = rehash hash hs'.nodes ↔ KeepsFlags hs m := by
  cases m with
  | addServer ct a =>
    simp only [mutate] at h
    split_ifs at h
    cases h
    exact iff_of_true (addServer_follows hf) trivial
  | removeServer ct a =>
    cases h
    exact iff_of_true (removeServer_follows hf) trivial
  | faultServer ct a =>
    cases h
    obtain ⟨hn, hr⟩ := faultServer_nodes hs ct a
    rw [hn, hr, hf]
    exact rehash_setActive_iff hd
  | recoverServer ct a =>
    cases h
    obtain ⟨hn, hr⟩ := recoverServer_nodes hs ct a
    rw [hn, hr, hf]
    exact rehash_setActive_iff hd
  | removeFaultServers ct =>
    cases h
    exact iff_of_true (removeFaultServers_follows hf) trivial

/-- Throughout a sequence of calls from the empty hash space the ring is that of the node list just
where no fault or recovery changes a flag. -/
theorem ring_follows_iff {ms : List Mutation} (hrun : Run (mutate hash) Free init ms hs) :
    (∀ pre post u, ms = pre ++ post → Run (mutate hash) Free init pre u → RingFollows hash u) ↔
      Run (mutate hash) KeepsFlags init ms hs := by
  refine hrun.guard_all_iff (I := fun hs => hs.seed.UniqueAddresses)
    (fun _ _ _ hd h => mutate_uniqueAddresses hd h) ?_ List.nodup_nil (ringFollows_iff.2 rfl)
  intro s m t hd hf h
  rw [ringFollows_iff] at hf ⊢
  exact mutate_follows_iff hd hf h

end Follows

section Sample

open Sample

/-- Two servers are added, and one of them is removed. -/
def twoRun : List Mutation :=
  [.addServer .zero (svr 1), .addServer .zero (svr 2), .recoverServer .zero (svr 1),
    .faultServer .zero (svr 3), .removeServer .zero (svr 1)]

theorem ring_follows_two : ∃ hs, Run (mutate zeroHash) Free init twoRun hs ∧
    hs.nodes = [⟨svr 2, true⟩] ∧ RingFollows zeroHash hs := by
  obtain ⟨hs, hrun, hnodes⟩ : ∃ hs, Run (mutate zeroHash) KeepsFlags init twoRun hs ∧
      hs.nodes = [⟨svr 2, true⟩] :=
    ⟨_, .cons trivial rfl (.cons trivial rfl (.cons (by unfold KeepsFlags; decide) rfl
      (.cons (by unfold KeepsFlags; decide) rfl (.cons trivial rfl (.nil _))))), by decide⟩
  have hfree := hrun.mono (Q := Free) fun _ _ _ => trivial
  exact ⟨hs, hfree, hnodes, (ring_follows_iff hfree).2 hrun _ [] hs (by simp) hfree⟩

/-- A ring of one node assigns it every hash. -/
theorem eachAssign_single {hash : Bytes → UInt64} {hs : HashSpace} {n : Node}
    (hring : hs.hashspace = rehash hash [n]) (h : UInt64) : hs.eachAssign h = [n] := by
  have hseed : hs.eachAssign h = (ofSeed hash ⟨[n], .zero⟩).eachAssign h := by
    apply eachAssign_congr
    rw [hring]
    simp only [ofSeed]
  have hlen : ((ofSeed hash ⟨[n], .zero⟩).eachAssign h).length = 1 :=
    length_eachAssign hash h (List.cons_ne_nil _ _) (List.nodup_singleton n)
  obtain ⟨r, hr⟩ := List.length_eq_one_iff.1 hlen
  have hmem : r ∈ [n] := mem_nodes_of_eachAssign (s := ⟨[n], .zero⟩)
    (hr ▸ List.mem_singleton_self r)
  rw [hseed, hr, List.mem_singleton.1 hmem]

/-- A server is added and becomes faulty: the sender goes on assigning it as active, a receiver of
the seed sees it faulty. -/
theorem fault_leaves_ring : ∃ hs,
    Run (mutate zeroHash) Free init [.addServer .zero (svr 1), .faultServer .zero (svr 1)] hs ∧
      hs.hashspace ≠ rehash zeroHash hs.nodes ∧ hs.eachAssign 0 = [⟨svr 1, true⟩] ∧
      (ofSeed zeroHash hs.seed).eachAssign 0 = [⟨svr 1, false⟩] := by
  obtain ⟨hnodes, hring⟩ :=
    faultServer_nodes (addServer zeroHash init .zero (svr 1)) .zero (svr 1)
  have hnodes : ((addServer zeroHash init .zero (svr 1)).faultServer .zero (svr 1)).1.nodes =
      [⟨svr 1, false⟩] := hnodes
  have hring : ((addServer zeroHash init .zero (svr 1)).faultServer .zero (svr 1)).1.hashspace =
      rehash zeroHash [⟨svr 1, true⟩] := hring.trans (addServer_follows rfl)
  refine ⟨_, .cons trivial rfl (.cons trivial rfl (.nil _)), ?_, eachAssign_single hring 0, ?_⟩
  · rw [hnodes, hring]
    intro he
    have hkept := (rehash_setActive_iff (a := svr 1) (b := false) (by decide)).1 he ⟨svr 1, true⟩
    exact absurd (hkept List.mem_cons_self rfl) (by decide)
  · refine eachAssign_single (?_ : _ = rehash zeroHash [⟨svr 1, false⟩]) 0
    rw [← hnodes]
    rfl

end Sample

end Kumofs.HashSpace
