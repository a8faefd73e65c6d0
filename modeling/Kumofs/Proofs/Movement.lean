import Kumofs.Lib.Stable
import Kumofs.Proofs.Ring

/-!
# How little a change of the servers moves

Taking a node's virtual nodes out of a sorted ring leaves the ring of the other nodes, wherever the
virtual nodes stood and however their hashes tie. So the walk over the one ring, without the node,
is the walk over the other, as far as it goes: a server that comes or goes moves only what it takes
or had.
-/

namespace Kumofs.HashSpace

open Stable Distinct

section Ring

variable {hash : Bytes → UInt64} {p : Node → Bool}

theorem filter_stableSort (q : VirtualNode → Bool) (ring : List VirtualNode) :
    (stableSort ring).filter q = stableSort (ring.filter q) :=
  filter_insertionSort ring

/-- Sorting the ring again after virtual nodes were appended is sorting it all at once. -/
theorem stableSort_append (ring more : List VirtualNode) :
    stableSort (stableSort ring ++ more) = stableSort (ring ++ more) :=
  insertionSort_append more ring

theorem filter_addVirtualNodes (ring : List VirtualNode) (n : Node) :
    (addVirtualNodes hash ring n).filter (p ·.real) =
      if p n then addVirtualNodes hash (ring.filter (p ·.real)) n
      else ring.filter (p ·.real) := by
  unfold addVirtualNodes
  rw [List.filter_append, List.filter_map]
  cases hp : p n
  · simp [Function.comp_def, hp]
  · simp [Function.comp_def, hp]

theorem filter_foldl_addVirtualNodes : ∀ (nodes : List Node) (ring : List VirtualNode),
    (nodes.foldl (addVirtualNodes hash) ring).filter (p ·.real) =
      (nodes.filter p).foldl (addVirtualNodes hash) (ring.filter (p ·.real))
  | [], ring => rfl
  | n :: nodes, ring => by
    rw [List.foldl_cons, filter_foldl_addVirtualNodes nodes, filter_addVirtualNodes,
      List.filter_cons]
    split_ifs <;> rfl

theorem filter_rehash (nodes : List Node) :
    (rehash hash nodes).filter (p ·.real) = rehash hash (nodes.filter p) := by
  unfold rehash
  rw [filter_stableSort, filter_foldl_addVirtualNodes]
  rfl

end Ring

section Walk

variable {hs : HashSpace} {h : UInt64} {p : Node → Bool}

theorem ringFrom_of_sorted (hsort : RingSorted hs.hashspace) :
    hs.ringFrom h = (hs.hashspace.filter (h ≤ ·.hash) ++
      hs.hashspace.filter fun v => !decide (h ≤ v.hash)).map (·.real) := by
  have hup : ∀ v w : VirtualNode, v.hash ≤ w.hash → decide (h ≤ v.hash) = true →
      decide (h ≤ w.hash) = true := by
    intro v w hvw hv
    simp only [decide_eq_true_eq] at hv ⊢
    exact UInt64.le_trans hv hvw
  obtain ⟨hd, ht⟩ := split_findIdx hup hsort
  unfold ringFrom
  simp only [hd, ht]

/-- The nodes seen from a hash on are those of the smaller ring, with the others between. -/
theorem filter_ringFrom {hs' : HashSpace} (hsort : RingSorted hs.hashspace)
    (hs'eq : hs'.hashspace = hs.hashspace.filter (p ·.real)) :
    (hs.ringFrom h).filter p = hs'.ringFrom h := by
  have hsort' : RingSorted hs'.hashspace := by
    rw [hs'eq]
    exact List.Pairwise.filter _ hsort
  rw [ringFrom_of_sorted hsort, ringFrom_of_sorted hsort', hs'eq, List.filter_map,
    List.filter_append]
  simp only [List.filter_filter, Function.comp_def, Bool.and_comm]

theorem eachAssign_eq : hs.eachAssign h =
    (hs.ringFrom h).eraseDups.take (numReplication + 1) := by
  by_cases hne : hs.hashspace = []
  · have hreals : hs.reals = [] := by rw [reals, hne]; rfl
    have hring : hs.ringFrom h = [] := by rw [ringFrom_eq, hreals, List.rotate_nil]
    unfold eachAssign
    simp only [hreals, hring, List.getElem?_nil, List.eraseDups_nil, List.take_nil]
  · exact eachAssign_eq_take hne

theorem eachAssign_congr {hs' : HashSpace} (hring : hs.hashspace = hs'.hashspace) :
    hs.eachAssign h = hs'.eachAssign h := by
  rw [eachAssign_eq, eachAssign_eq]
  unfold ringFrom
  rw [hring]

/-- Where one ring is the other without some nodes, the walk over the larger one without them is a
first part of the walk over the smaller one. -/
theorem filter_eachAssign_prefix {hs' : HashSpace} (hsort : RingSorted hs.hashspace)
    (hs'eq : hs'.hashspace = hs.hashspace.filter (p ·.real)) :
    (hs.eachAssign h).filter p <+: hs'.eachAssign h := by
  rw [eachAssign_eq, eachAssign_eq, ← filter_ringFrom hsort hs'eq, ← filter_eraseDups]
  exact filter_take_prefix _ _ _

end Walk

section Change

variable (hash : Bytes → UInt64) {s : Seed} {ct : ClockTime} {a : Address}

/-- The nodes of other addresses. -/
def isOther (a : Address) (n : Node) : Bool := n.addr != a

theorem addServer_filter (hnew : ∀ n ∈ s.nodes, n.addr ≠ a) :
    (ofSeed hash s).hashspace =
      (addServer hash (ofSeed hash s) ct a).hashspace.filter (isOther a ·.real) := by
  have hkeep : (ofSeed hash s).hashspace.filter (isOther a ·.real) = (ofSeed hash s).hashspace := by
    refine List.filter_eq_self.2 fun v hv => ?_
    simpa [isOther] using hnew _ (mem_rehash hash hv)
  have hgone : isOther a ⟨a, true⟩ = false := by simp [isOther]
  unfold addServer
  simp only []
  rw [filter_stableSort, filter_addVirtualNodes, hgone, if_neg Bool.false_ne_true, hkeep,
    stableSort_of_sorted (hashspace_sorted hash s)]

theorem eraseP_eq_filter : ∀ {nodes : List Node}, (nodes.map (·.addr)).Nodup →
    nodes.eraseP (·.addr == a) = nodes.filter (isOther a)
  | [], _ => rfl
  | n :: nodes, hd => by
    rw [List.map_cons, List.nodup_cons] at hd
    obtain ⟨hn, hd⟩ := hd
    by_cases ha : n.addr = a
    · have hkeep : nodes.filter (isOther a) = nodes := by
        refine List.filter_eq_self.2 fun m hm => ?_
        have hne : m.addr ≠ a := fun he => hn (List.mem_map.2 ⟨m, hm, by rw [he, ha]⟩)
        simpa [isOther] using hne
      rw [List.eraseP_cons_of_pos (by simpa using ha), List.filter_cons, hkeep]
      simp [isOther, ha]
    · rw [List.eraseP_cons_of_neg (by simpa using ha), eraseP_eq_filter hd, List.filter_cons]
      simp [isOther, ha]

theorem removeServer_filter (hd : (s.nodes.map (·.addr)).Nodup)
    (hin : a ∈ s.nodes.map (·.addr)) :
    (removeServer hash (ofSeed hash s) ct a).1.hashspace =
      (ofSeed hash s).hashspace.filter (isOther a ·.real) := by
  have hinc : (ofSeed hash s).serverIsInclude a = true := by
    obtain ⟨n, hn, rfl⟩ := List.mem_map.1 hin
    exact List.any_eq_true.2 ⟨n, hn, by simp⟩
  unfold removeServer
  rw [if_pos hinc]
  simp only [ofSeed]
  rw [filter_rehash, eraseP_eq_filter hd]

/-- A server that joins is only put between the nodes that were visited, and one that leaves only
gives way to the next. -/
theorem assign_moves_little (hd : (s.nodes.map (·.addr)).Nodup) (h : UInt64) :
    (∀ ct x, x ∉ s.nodes.map (·.addr) →
      ((addServer hash (ofSeed hash s) ct x).eachAssign h).filter (·.addr != x) <+:
        (ofSeed hash s).eachAssign h) ∧
    ∀ ct, ∀ y ∈ s.nodes.map (·.addr),
      ((ofSeed hash s).eachAssign h).filter (·.addr != y) <+:
        (removeServer hash (ofSeed hash s) ct y).1.eachAssign h := by
  refine ⟨fun ct x hx => ?_, fun ct y hy => ?_⟩
  · have hnew : ∀ n ∈ s.nodes, n.addr ≠ x := fun n hn he => hx (List.mem_map.2 ⟨n, hn, he⟩)
    exact filter_eachAssign_prefix (stableSort_sorted _) (addServer_filter hash hnew)
  · exact filter_eachAssign_prefix (hashspace_sorted hash s) (removeServer_filter hash hd hy)

end Change

section Sample

open Sample

theorem assign_moves_little_four :
    ((addServer zeroHash (ofSeed zeroHash (seedOf [1, 2, 3, 4] .zero)) .zero (svr 5)).eachAssign
        0).filter (·.addr != svr 5) <+: [⟨svr 1, true⟩, ⟨svr 2, true⟩, ⟨svr 3, true⟩] ∧
      [⟨svr 2, true⟩, ⟨svr 3, true⟩] <+: (removeServer zeroHash
        (ofSeed zeroHash (seedOf [1, 2, 3, 4] .zero)) .zero (svr 1)).1.eachAssign 0 := by
  have hassign : (ofSeed zeroHash (seedOf [1, 2, 3, 4] .zero)).eachAssign 0 =
      [⟨svr 1, true⟩, ⟨svr 2, true⟩, ⟨svr 3, true⟩] :=
    eachAssign_zeroHash rfl (by decide) (by decide) (by decide)
  obtain ⟨hadd, hremove⟩ :=
    assign_moves_little zeroHash (s := seedOf [1, 2, 3, 4] .zero) (by decide) 0
  rw [hassign] at hadd hremove
  exact ⟨hadd .zero (svr 5) (by decide), hremove .zero (svr 1) (by decide)⟩

end Sample

end Kumofs.HashSpace
