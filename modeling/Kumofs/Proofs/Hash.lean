import Kumofs.Hash

/-!
# The nodes a walk visits

A ring built from a seed holds only nodes of the seed, so the walk visits only those; it visits at
most three, no node twice.
-/

namespace Kumofs.HashSpace

instance : Std.Total fun v w : VirtualNode => v.hash ≤ w.hash :=
  ⟨fun v w => UInt64.le_total v.hash w.hash⟩

instance : IsTrans VirtualNode fun v w => v.hash ≤ w.hash := ⟨fun _ _ _ => UInt64.le_trans⟩

/-- The virtual nodes of a ring come by their hashes. -/
def RingSorted (ring : List VirtualNode) : Prop := ring.Pairwise fun v w => v.hash ≤ w.hash

section Ring

variable (hash : Bytes → UInt64)

theorem stableSort_sorted (ring : List VirtualNode) : RingSorted (stableSort ring) :=
  List.pairwise_insertionSort _ _

theorem stableSort_of_sorted {ring : List VirtualNode} (h : RingSorted ring) :
    stableSort ring = ring :=
  List.Pairwise.insertionSort_eq h

theorem mem_addVirtualNodes {ring : List VirtualNode} {n : Node} {v : VirtualNode}
    (h : v ∈ addVirtualNodes hash ring n) : v ∈ ring ∨ v.real = n := by
  unfold addVirtualNodes at h
  rcases List.mem_append.1 h with h | h
  · exact .inl h
  · obtain ⟨x, -, rfl⟩ := List.mem_map.1 h
    exact .inr rfl

theorem mem_foldl_addVirtualNodes {v : VirtualNode} :
    ∀ (nodes : List Node) (ring : List VirtualNode),
      v ∈ nodes.foldl (addVirtualNodes hash) ring → v ∈ ring ∨ v.real ∈ nodes
  | [], _, h => .inl h
  | n :: nodes, ring, h => by
    rcases mem_foldl_addVirtualNodes nodes _ h with h | h
    · rcases mem_addVirtualNodes hash h with h | h
      · exact .inl h
      · exact .inr (h ▸ List.mem_cons_self)
    · exact .inr (List.mem_cons_of_mem _ h)

theorem mem_rehash {nodes : List Node} {v : VirtualNode} (h : v ∈ rehash hash nodes) :
    v.real ∈ nodes := by
  have h' := (List.mem_insertionSort _).1 h
  rcases mem_foldl_addVirtualNodes hash nodes [] h' with h | h
  · simp at h
  · exact h

end Ring

section Walk

variable {ring : List Node} {origin : ℕ} {skip : Node → Bool}

/-- The walk stops at a node of the ring it does not skip. -/
theorem seek_some : ∀ {fuel it i : ℕ} {r : Node}, seek ring origin skip fuel it = some (i, r) →
    r ∈ ring ∧ skip r = false
  | 0, it, i, r, h => by simp [seek] at h
  | fuel + 1, it, i, r, h => by
    simp only [seek] at h
    split_ifs at h
    split at h
    · simp at h
    · rename_i x hx
      split_ifs at h with hs
      · exact seek_some h
      · simp only [Option.some.injEq, Prod.mk.injEq] at h
        obtain ⟨-, rfl⟩ := h
        exact ⟨List.mem_of_getElem? hx, by simpa using hs⟩

/-- The walk passes over `k` nodes it skips and stops at the next. -/
theorem seek_of_skips {r : Node} :
    ∀ (k fuel it : ℕ), origin < it → k < fuel →
      (∀ j < k, ∃ x, ring[it + j]? = some x ∧ skip x = true) → ring[it + k]? = some r →
      skip r = false → seek ring origin skip fuel it = some (it + k, r)
  | 0, fuel + 1, it, ho, _, _, hr, hs => by
    simp only [Nat.add_zero] at hr ⊢
    simp only [seek, hr, hs, (Nat.ne_of_lt ho).symm, if_false, Bool.false_eq_true]
  | k + 1, fuel + 1, it, ho, hk, hx, hr, hs => by
    obtain ⟨x, hx0, hsx⟩ := hx 0 (Nat.succ_pos k)
    have hlen : it + (k + 1) < ring.length := by
      by_contra hge
      rw [List.getElem?_eq_none (Nat.le_of_not_lt hge)] at hr
      simp at hr
    have hnext : iterNext ring.length it = it + 1 := by
      unfold iterNext
      rw [if_neg (by omega)]
    simp only [Nat.add_zero] at hx0
    simp only [seek, hx0, hsx, (Nat.ne_of_lt ho).symm, if_false, if_true, hnext]
    have hadd : ∀ j, it + 1 + j = it + (j + 1) := fun j => by omega
    have ih := seek_of_skips k fuel (it + 1) (Nat.lt_succ_of_lt ho)
      (Nat.lt_of_succ_lt_succ hk) (fun j hj => hadd j ▸ hx (j + 1) (Nat.succ_lt_succ hj))
      (hadd k ▸ hr) hs
    rw [ih, hadd]

end Walk

variable (hs : HashSpace) (h : UInt64)

/-- The shapes of an assignment: its nodes are of the ring and differ. -/
theorem eachAssign_cases : hs.eachAssign h = [] ∨
    (∃ r0 ∈ hs.reals, hs.eachAssign h = [r0]) ∨
    (∃ r0 ∈ hs.reals, ∃ r1 ∈ hs.reals, r1 ≠ r0 ∧ hs.eachAssign h = [r0, r1]) ∨
    ∃ r0 ∈ hs.reals, ∃ r1 ∈ hs.reals, ∃ r2 ∈ hs.reals,
      r1 ≠ r0 ∧ r2 ≠ r0 ∧ r2 ≠ r1 ∧ hs.eachAssign h = [r0, r1, r2] := by
  unfold eachAssign
  simp only []
  split
  · exact .inl rfl
  · rename_i r0 h0
    have m0 := List.mem_of_getElem? h0
    right
    split
    · exact .inl ⟨r0, m0, rfl⟩
    · rename_i it r1 h1
      obtain ⟨m1, s1⟩ := seek_some h1
      simp only [beq_eq_false_iff_ne, ne_eq] at s1
      right
      split
      · exact .inl ⟨r0, m0, r1, m1, s1, rfl⟩
      · rename_i it' r2 h2
        obtain ⟨m2, s2⟩ := seek_some h2
        simp only [Bool.or_eq_false_iff, beq_eq_false_iff_ne, ne_eq] at s2
        exact .inr ⟨r0, m0, r1, m1, r2, m2, s1, s2.1, s2.2, rfl⟩

theorem eachAssign_length_le : (hs.eachAssign h).length ≤ numReplication + 1 := by
  rcases eachAssign_cases hs h with e | ⟨_, _, e⟩ | ⟨_, _, _, _, _, e⟩ |
    ⟨_, _, _, _, _, _, _, _, _, e⟩ <;>
    simp [e, numReplication]

variable {hs h}

theorem mem_reals_of_eachAssign {r : Node} (hr : r ∈ hs.eachAssign h) : r ∈ hs.reals := by
  rcases eachAssign_cases hs h with e | ⟨_, _, e⟩ | ⟨_, _, _, _, _, e⟩ |
    ⟨_, _, _, _, _, _, _, _, _, e⟩ <;>
    rw [e] at hr <;> simp only [List.mem_cons, List.not_mem_nil, or_false] at hr
  · subst hr; assumption
  · rcases hr with rfl | rfl <;> assumption
  · rcases hr with rfl | rfl | rfl <;> assumption

theorem mem_nodes_of_eachAssign {hash : Bytes → UInt64} {s : Seed} {r : Node}
    (hr : r ∈ (ofSeed hash s).eachAssign h) : r ∈ s.nodes := by
  obtain ⟨v, hv, rfl⟩ := List.mem_map.1 (mem_reals_of_eachAssign hr)
  exact mem_rehash hash hv

theorem empty_iff : hs.empty = true ↔ ∀ r ∈ hs.nodes, r.active = false := by
  simp [empty]

/-- A seed with no active node assigns no active node. -/
theorem not_active_of_empty {hash : Bytes → UInt64} {s : Seed}
    (he : (ofSeed hash s).empty = true) {r : Node} (hr : r ∈ (ofSeed hash s).eachAssign h) :
    r.active = false :=
  empty_iff.1 he r (mem_nodes_of_eachAssign hr)

theorem mem_activeAssigned {a : Address} :
    a ∈ hs.activeAssigned h ↔ ∃ r ∈ hs.eachAssign h, r.active = true ∧ r.addr = a := by
  simp [activeAssigned, and_assoc]

theorem mem_getActiveNodes {a : Address} : a ∈ hs.getActiveNodes ↔ ⟨a, true⟩ ∈ hs.nodes := by
  unfold getActiveNodes Seed.getActiveNodes seed
  simp only [List.mem_map, List.mem_filter]
  constructor
  · rintro ⟨⟨b, c⟩, ⟨hn, hc⟩, rfl⟩
    have hc : c = true := hc
    rwa [hc] at hn
  · exact fun h => ⟨⟨a, true⟩, ⟨h, rfl⟩, rfl⟩

theorem mem_getActiveNodes_of_activeAssigned {hash : Bytes → UInt64} {s : Seed} {a : Address}
    (ha : a ∈ (ofSeed hash s).activeAssigned h) : a ∈ (ofSeed hash s).getActiveNodes := by
  obtain ⟨⟨b, c⟩, hr, hc, rfl⟩ := mem_activeAssigned.1 ha
  have hc : c = true := hc
  subst hc
  exact mem_getActiveNodes.2 (mem_nodes_of_eachAssign hr)

end Kumofs.HashSpace
