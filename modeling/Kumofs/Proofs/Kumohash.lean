import Kumofs.Proofs.Ring
import Kumofs.System.Kumohash

/-!
# The tool and the servers

Both chain the same hashes from the same six bytes of an address. Where no two of the hashes are
equal there is one order of them, so that the two rings are one; and the block of `assign` takes
from it what `EACH_ASSIGN` visits, the first three distinct nodes from the hash of the key on.
-/

namespace Kumofs.Kumohash

open Distinct

variable {R : Ruby} {servers : List Node} {ct : ClockTime}

/-! ## The hashes -/

theorem packQ_eq (x : UInt64) : packQ x = le64 x := by
  unfold packQ le64
  rw [Endian.bytes_eq_map]
  refine List.map_congr_left fun i hi => ?_
  have hi := List.mem_range.1 hi
  apply UInt8.toNat_inj.1
  interval_cases i <;> simp [Nat.shiftRight_eq_div_pow, Nat.toUInt64]

theorem dumpAddr_eq (n : Node) : n.dumpAddr = n.address.dump := rfl

theorem hash_eq (R : Ruby) : hash R = serverHash R.digest := rfl

theorem virtualNodeNumber_eq : virtualNodeNumber = Kumofs.virtualNodeNumber := rfl

theorem chain_eq (real : ℕ) : ∀ (n : ℕ) (x : UInt64), (x, real) :: chain R real n x =
    (HashSpace.virtualHashes (serverHash R.digest) (n + 1) x).map (·, real)
  | 0, x => rfl
  | n + 1, x => by
    rw [chain, HashSpace.virtualHashes, List.map_cons, ← packQ_eq, ← hash_eq]
    exact congrArg _ (chain_eq real n (hash R (packQ x)))

/-- The hashes of a node. -/
def nodeHashes (R : Ruby) (n : Node) : List UInt64 :=
  HashSpace.virtualHashes (serverHash R.digest) Kumofs.virtualNodeNumber
    (serverHash R.digest n.address.dump)

theorem addVirtualNodes_eq (space : List (UInt64 × ℕ)) (real : ℕ) (n : Node) :
    addVirtualNodes R space real n = space ++ (nodeHashes R n).map (·, real) := by
  unfold addVirtualNodes
  exact congrArg _ (chain_eq real _ _)

/-! ## The ring -/

/-- The virtual nodes of all nodes, in the order of the nodes. -/
def allNodes (R : Ruby) (servers : List Node) : List (UInt64 × ℕ) :=
  servers.zipIdx.flatMap fun s => (nodeHashes R s.1).map (·, s.2)

theorem allNodes_append (n : Node) : allNodes R (servers ++ [n]) =
    allNodes R servers ++ (nodeHashes R n).map (·, servers.length) := by
  unfold allNodes
  rw [List.zipIdx_append, List.flatMap_append]
  simp

theorem createHs_spec (hR : R.Documented) : ∀ servers : List Node,
    (createHs R servers).nodes = servers ∧
      (createHs R servers).space.Perm (allNodes R servers) ∧
      (createHs R servers).space.Pairwise fun v w => v.1 ≤ w.1 := by
  intro servers
  induction servers using List.reverseRecOn with
  | nil => exact ⟨rfl, .nil, .nil⟩
  | append_singleton servers n ih =>
    obtain ⟨hnodes, hperm, -⟩ := ih
    have hcreate : createHs R (servers ++ [n]) = addServer R (createHs R servers) n := by
      unfold createHs
      rw [List.foldl_append]
      rfl
    rw [hcreate, allNodes_append]
    refine ⟨?_, ?_, hR.sort_sorted _⟩
    · simp [addServer, hnodes]
    · refine (hR.sort_perm _).trans ?_
      rw [addVirtualNodes_eq, hnodes]
      exact hperm.append_right _

/-- The node of a server, at its place. -/
def nodeAt (servers : List Node) (i : ℕ) : Kumofs.Node :=
  ((servers.map fun n => (⟨n.address, n.isActive⟩ : Kumofs.Node)))[i]?.getD ⟨⟨[]⟩, false⟩

theorem nodeAt_of_getElem {i : ℕ} {n : Node} (h : servers[i]? = some n) :
    nodeAt servers i = ⟨n.address, n.isActive⟩ := by
  simp [nodeAt, h]

/-- A virtual node of the tool, as the servers have it. -/
def virtualNode (servers : List Node) (v : UInt64 × ℕ) : VirtualNode := ⟨v.1, nodeAt servers v.2⟩

theorem map_allNodes (R : Ruby) (servers : List Node) :
    (allNodes R servers).map (virtualNode servers) =
      servers.flatMap fun n => (nodeHashes R n).map (⟨·, ⟨n.address, n.isActive⟩⟩) := by
  have hzip : servers.zipIdx.map (·.1) = servers := List.zipIdx_map_fst 0 servers
  unfold allNodes
  rw [List.map_flatMap]
  conv_rhs => rw [← hzip]
  rw [List.flatMap_map]
  refine List.flatMap_congr fun s hs => ?_
  obtain ⟨n, i⟩ := s
  have hget : servers[i]? = some n := by
    have := List.mem_zipIdx_iff_getElem?.1 hs
    simpa using this
  rw [List.map_map]
  refine List.map_congr_left fun x _ => ?_
  simp only [Function.comp_apply, virtualNode, nodeAt_of_getElem hget]

theorem foldl_addVirtualNodes (hash : Bytes → UInt64) : ∀ (nodes : List Kumofs.Node)
    (ring : List VirtualNode), nodes.foldl (HashSpace.addVirtualNodes hash) ring =
      ring ++ nodes.flatMap fun n => (HashSpace.virtualHashes hash Kumofs.virtualNodeNumber
        (hash n.addr.dump)).map (⟨·, n⟩)
  | [], ring => by simp
  | n :: nodes, ring => by
    rw [List.foldl_cons, foldl_addVirtualNodes hash nodes, HashSpace.addVirtualNodes,
      List.flatMap_cons, List.append_assoc]

theorem map_fst_allNodes (R : Ruby) (servers : List Node) :
    (allNodes R servers).map (·.1) = virtualHashes R.digest servers := by
  have hzip : servers.zipIdx.map (·.1) = servers := List.zipIdx_map_fst 0 servers
  unfold allNodes virtualHashes
  rw [List.map_flatMap]
  conv_rhs => rw [← hzip]
  rw [List.flatMap_map]
  refine List.flatMap_congr fun s _ => ?_
  rw [List.map_map]
  exact List.map_id _

theorem nodup_hashes (hR : R.Documented) (hd : (virtualHashes R.digest servers).Nodup) :
    ((createHs R servers).space.map (·.1)).Nodup := by
  obtain ⟨-, hperm, -⟩ := createHs_spec hR servers
  rw [(hperm.map _).nodup_iff, map_fst_allNodes]
  exact hd

/-- The two rings are one. -/
theorem ring_eq (hR : R.Documented) (hd : (virtualHashes R.digest servers).Nodup) :
    (createHs R servers).space.map (virtualNode servers) =
      (HashSpace.ofSeed (serverHash R.digest) (seed servers ct)).hashspace := by
  obtain ⟨-, hperm, hsorted⟩ := createHs_spec hR servers
  have hring : (HashSpace.ofSeed (serverHash R.digest) (seed servers ct)).hashspace.Perm
      ((allNodes R servers).map (virtualNode servers)) := by
    have hsort := List.perm_insertionSort (fun x y : VirtualNode => x.hash ≤ y.hash)
      ((seed servers ct).nodes.foldl (HashSpace.addVirtualNodes (serverHash R.digest)) [])
    refine hsort.trans ?_
    rw [foldl_addVirtualNodes, List.nil_append, map_allNodes, seed, List.flatMap_map]
    exact .refl _
  have hinj := List.inj_on_of_nodup_map (nodup_hashes hR hd)
  have hle : ((createHs R servers).space.map (virtualNode servers)).Pairwise
      fun v w => v.hash ≤ w.hash := by
    rw [List.pairwise_map]
    exact hsorted
  refine List.Perm.eq_of_pairwise ?_ hle (HashSpace.hashspace_sorted _ _)
    ((hperm.map _).trans hring.symm)
  intro v w hv hw hvw hwv
  have hw' := (((hperm.map (virtualNode servers)).trans hring.symm).mem_iff).2 hw
  obtain ⟨x, hx, rfl⟩ := List.mem_map.1 hv
  obtain ⟨y, hy, rfl⟩ := List.mem_map.1 hw'
  exact congrArg _ (hinj hx hy (UInt64.le_antisymm hvw hwv))

/-! ## The walk -/

theorem walk_assignBlock (space : List (UInt64 × ℕ)) (first : ℕ) : ∀ (n j : ℕ) (seen : List ℕ),
    j + n = space.length → seen.length < 3 →
    walk space assignBlock n (first + j) seen =
      seen ++ (distinct seen (((space.map (·.2)).rotate first).drop j)).take (3 - seen.length)
  | 0, j, seen, hj, _ => by
    have hdrop : ((space.map (·.2)).rotate first).drop j = [] :=
      List.drop_of_length_le (by simp; omega)
    rw [hdrop, distinct_of_seen (by simp), walk]
    simp
  | n + 1, j, seen, hj, hseen => by
    have hlt : (first + j) % space.length < space.length := Nat.mod_lt _ (by omega)
    have hv : space[(first + j) % space.length]? = some space[(first + j) % space.length] :=
      List.getElem?_eq_getElem hlt
    generalize space[(first + j) % space.length] = v at hv
    have hrot : ((space.map (·.2)).rotate first)[j]? = some v.2 := by
      rw [List.getElem?_rotate (by simp; omega), List.length_map, Nat.add_comm, List.getElem?_map,
        hv]
      rfl
    have hdrop : ((space.map (·.2)).rotate first).drop j =
        v.2 :: ((space.map (·.2)).rotate first).drop (j + 1) := by
      obtain ⟨hl, he⟩ := List.getElem?_eq_some_iff.1 hrot
      rw [List.drop_eq_getElem_cons hl, he]
    have ih := walk_assignBlock space first n (j + 1)
    rw [hdrop]
    unfold walk
    simp only [hv]
    by_cases hmem : v.2 ∈ seen
    · simp only [assignBlock, if_pos hmem, if_true]
      rw [distinct_cons_of_mem hmem, Nat.add_assoc]
      exact ih seen (by omega) hseen
    · have hlength : (seen ++ [v.2]).length = seen.length + 1 := by simp
      have hcongr : distinct (v.2 :: seen) (((space.map (·.2)).rotate first).drop (j + 1)) =
          distinct (seen ++ [v.2]) (((space.map (·.2)).rotate first).drop (j + 1)) :=
        distinct_congr (by simp [or_comm])
      have hnew : distinct seen (v.2 :: ((space.map (·.2)).rotate first).drop (j + 1)) = _ :=
        @distinct_append _ _ _ [] _ _ (List.forall_mem_nil _) hmem
      rw [hnew, hcongr]
      simp only [assignBlock, if_neg hmem, hlength]
      by_cases hmore : seen.length + 1 < 3
      · rw [if_pos (by simpa using hmore), Nat.add_assoc, ih _ (by omega) (by omega), hlength]
        rw [show 3 - seen.length = 3 - (seen.length + 1) + 1 by omega, List.take_succ_cons]
        simp
      · rw [if_neg (by simpa using hmore), show 3 - seen.length = 1 by omega]
        simp

theorem assign_eq (R : Ruby) (servers : List Node) (key : Bytes) :
    let hs := createHs R servers
    assign R servers key = ((((hs.space.map (·.2)).rotate
      (hs.space.takeWhile fun v => v.1 < hash R key).length).eraseDups.take 3).filterMap
        fun real => hs.nodes[real]?) := by
  intro hs
  have hwalk := walk_assignBlock hs.space
    (hs.space.takeWhile fun v => v.1 < hash R key).length hs.space.length 0 [] (by simp) (by simp)
  rw [Nat.add_zero, List.drop_zero, distinct_nil, List.nil_append] at hwalk
  unfold assign findEach
  exact congrArg _ hwalk

theorem findIdx_eq_length_takeWhile {α : Type} (p : α → Bool) : ∀ l : List α,
    l.findIdx (fun x => !p x) = (l.takeWhile p).length
  | [] => rfl
  | x :: l => by
    rw [List.findIdx_cons, List.takeWhile_cons, findIdx_eq_length_takeWhile p l]
    cases p x <;> simp

/-- Both start at the same virtual node. -/
theorem ringFrom_eq_rotate (hs : HashSpace) (h : UInt64) :
    hs.ringFrom h = hs.reals.rotate (hs.hashspace.takeWhile fun v => v.hash < h).length := by
  rw [HashSpace.ringFrom_eq]
  unfold HashSpace.find
  simp only [findIdx_eq_length_takeWhile]
  split_ifs with hend
  · rw [hend, List.rotate_zero]
    have := List.rotate_length hs.reals
    unfold HashSpace.reals at this ⊢
    rw [List.length_map] at this
    exact this.symm
  · rfl

/-! ## The claimed order -/

theorem ringFrom_seed (hR : R.Documented) (hd : (virtualHashes R.digest servers).Nodup)
    (h : UInt64) :
    (HashSpace.ofSeed (serverHash R.digest) (seed servers ct)).ringFrom h =
      (((createHs R servers).space.map (·.2)).rotate
        ((createHs R servers).space.takeWhile fun v => v.1 < h).length).map (nodeAt servers) := by
  rw [ringFrom_eq_rotate, HashSpace.reals, ← ring_eq hR hd, List.map_map, List.takeWhile_map,
    List.length_map, List.map_rotate, List.map_map]
  rfl

theorem mem_space (hR : R.Documented) {i : ℕ}
    (hi : i ∈ (createHs R servers).space.map (·.2)) :
    ∃ n, servers[i]? = some n ∧ (hash R n.address.dump, i) ∈ (createHs R servers).space := by
  obtain ⟨-, hperm, -⟩ := createHs_spec hR servers
  obtain ⟨v, hv, rfl⟩ := List.mem_map.1 hi
  obtain ⟨s, hs, hv⟩ := List.mem_flatMap.1 (hperm.mem_iff.1 hv)
  obtain ⟨x, -, rfl⟩ := List.mem_map.1 hv
  refine ⟨s.1, by simpa using List.mem_zipIdx_iff_getElem?.1 hs, hperm.mem_iff.2 ?_⟩
  exact List.mem_flatMap.2 ⟨s, hs, List.mem_map.2 ⟨_, List.mem_cons_self, rfl⟩⟩

/-- Nodes at different places have different addresses. -/
theorem nodeAt_inj (hR : R.Documented) (hd : (virtualHashes R.digest servers).Nodup) {i j : ℕ}
    (hi : i ∈ (createHs R servers).space.map (·.2))
    (hj : j ∈ (createHs R servers).space.map (·.2)) (hij : nodeAt servers i = nodeAt servers j) :
    i = j := by
  obtain ⟨n, hn, hi⟩ := mem_space hR hi
  obtain ⟨m, hm, hj⟩ := mem_space hR hj
  rw [nodeAt_of_getElem hn, nodeAt_of_getElem hm] at hij
  have haddr : n.address = m.address := congrArg Kumofs.Node.addr hij
  have hfst : hash R n.address.dump = hash R m.address.dump := by rw [haddr]
  exact congrArg Prod.snd (List.inj_on_of_nodup_map (nodup_hashes hR hd) hi hj hfst)

theorem map_address_filterMap : ∀ l : List ℕ, (∀ i ∈ l, ∃ n, servers[i]? = some n) →
    (l.filterMap fun i => servers[i]?).map (·.address) = (l.map (nodeAt servers)).map (·.addr)
  | [], _ => rfl
  | i :: l, hl => by
    obtain ⟨n, hn⟩ := hl i List.mem_cons_self
    rw [List.filterMap_cons_some hn, List.map_cons, List.map_cons, List.map_cons,
      nodeAt_of_getElem hn,
      map_address_filterMap l fun j hj => hl j (List.mem_cons_of_mem _ hj)]

/-- `kumohash assign` lists the addresses that `EACH_ASSIGN` visits, in its order. -/
theorem assign_lists (hR : R.Documented) (hne : servers ≠ [])
    (hd : (virtualHashes R.digest servers).Nodup) (ct : ClockTime) (key : Bytes) :
    (assign R servers key).map (·.address) =
      ((HashSpace.ofSeed (serverHash R.digest) (seed servers ct)).eachAssign
        (serverHash R.digest key)).map (·.addr) := by
  obtain ⟨hnodes, -, -⟩ := createHs_spec hR servers
  have hring := HashSpace.hashspace_ne_nil (serverHash R.digest) (s := seed servers ct)
    (by simpa [seed] using hne)
  have hmem : ∀ i ∈ ((createHs R servers).space.map (·.2)).rotate
      ((createHs R servers).space.takeWhile fun v => v.1 < hash R key).length,
      i ∈ (createHs R servers).space.map (·.2) := fun i hi => List.mem_rotate.1 hi
  rw [HashSpace.eachAssign_eq_take hring, ringFrom_seed hR hd, assign_eq, hnodes, ← hash_eq,
    eraseDups_map (nodeAt servers) _ fun i hi j hj => nodeAt_inj hR hd (hmem i hi) (hmem j hj),
    ← List.map_take]
  refine map_address_filterMap _ fun i hi => ?_
  obtain ⟨n, hn, -⟩ := mem_space hR (hmem i (List.mem_eraseDups.1 (List.mem_of_mem_take hi)))
  exact ⟨n, hn⟩

section Counting

/-- A digest by which every hash of a node is the number after the one before. -/
def counting : Ruby := ⟨fun s => Endian.bytes 20 (Endian.value s + 1),
  List.insertionSort fun v w => v.1 ≤ w.1⟩

theorem counting_documented : counting.Documented where
  length_digest _ := Endian.length_bytes _ _
  sort_perm := List.perm_insertionSort _
  sort_sorted l := by
    have htotal : Std.Total fun v w : UInt64 × ℕ => v.1 ≤ w.1 :=
      ⟨fun v w => UInt64.le_total v.1 w.1⟩
    have htrans : IsTrans (UInt64 × ℕ) fun v w => v.1 ≤ w.1 :=
      ⟨fun _ _ _ hvw hwx => UInt64.le_trans hvw hwx⟩
    exact List.pairwise_insertionSort _ l

theorem serverHash_counting (data : Bytes) :
    serverHash counting.digest data = UInt64.ofNat (Endian.value data + 1) := by
  unfold serverHash counting
  rw [Endian.take_bytes 8 12, Endian.value_bytes]
  apply UInt64.toNat_inj.1
  rw [UInt64.toNat_ofNat', UInt64.toNat_ofNat']
  exact Nat.mod_mod _ _

theorem virtualHashes_counting : ∀ n v : ℕ,
    HashSpace.virtualHashes (serverHash counting.digest) n (UInt64.ofNat v) =
      (List.range' v n).map UInt64.ofNat
  | 0, _ => rfl
  | n + 1, v => by
    have hnext : serverHash counting.digest (le64 (UInt64.ofNat v)) = UInt64.ofNat (v + 1) := by
      rw [serverHash_counting, ← packQ_eq, packQ, Endian.value_bytes]
      apply UInt64.toNat_inj.1
      simp only [UInt64.toNat_ofNat']
      omega
    rw [HashSpace.virtualHashes, hnext, virtualHashes_counting n, List.range'_succ, List.map_cons]

/-- Two servers whose hashes lie apart. -/
def twoServers : List Node := [⟨⟨10, 0, 0, 1⟩, 19800, true⟩, ⟨⟨10, 0, 0, 2⟩, 19800, true⟩]

theorem nodup_twoServers : (virtualHashes counting.digest twoServers).Nodup := by
  have hhashes : virtualHashes counting.digest twoServers =
      (List.range' 1099512305742 128 ++ List.range' 2199023933518 128).map UInt64.ofNat := by
    unfold virtualHashes twoServers
    simp only [List.flatMap_cons, List.flatMap_nil, List.append_nil, serverHash_counting,
      virtualHashes_counting, List.map_append]
    rfl
  rw [hhashes]
  refine List.Nodup.map_on ?_ ?_
  · intro x hx y hy hxy
    have heq := congrArg UInt64.toNat hxy
    simp only [UInt64.toNat_ofNat'] at heq
    simp only [List.mem_append, List.mem_range'_1] at hx hy
    omega
  · refine List.nodup_append.2 ⟨List.nodup_range', List.nodup_range', fun x hx y hy => ?_⟩
    simp only [List.mem_range'_1] at hx hy
    omega

theorem assign_lists_twoServers : (assign counting twoServers [107]).map (·.address) =
    ((HashSpace.ofSeed (serverHash counting.digest) (seed twoServers (.mk' 1 1000))).eachAssign
      (serverHash counting.digest [107])).map (·.addr) :=
  assign_lists counting_documented (by decide) nodup_twoServers _ _

end Counting

end Kumofs.Kumohash
