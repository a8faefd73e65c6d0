import Kumofs.Gateway.Store
import Kumofs.Lib.Distinct
import Kumofs.Proofs.Hash
import Kumofs.Sample
import Kumofs.Server.Assign
import Mathlib.Data.List.Rotate

/-!
# The walks over the ring and the nodes they stand for

`EACH_ASSIGN` takes the first distinct nodes of the ring, read from the first virtual node whose
hash is not below `h` and around. The gateway's walk looks at the same nodes from `offset` on and
stops at the first active one, so that node's server finds itself assigned.
-/

namespace Kumofs.HashSpace

/-- The nodes of the ring from the first virtual node of hash at least `h` on, and around. -/
def ringFrom (hs : HashSpace) (h : UInt64) : List Node :=
  let it := hs.hashspace.findIdx (h ≤ ·.hash)
  (hs.hashspace.drop it ++ hs.hashspace.take it).map (·.real)

section Walk

variable {ring : List Node} {origin : ℕ}

theorem iterNext_rotate {j : ℕ} (ho : origin < ring.length) :
    iterNext ring.length ((origin + j) % ring.length) = (origin + (j + 1)) % ring.length := by
  have hlt := Nat.mod_lt (origin + j) (Nat.zero_lt_of_lt ho)
  have hmod : (origin + (j + 1)) % ring.length =
      ((origin + j) % ring.length + 1) % ring.length := by
    rw [Nat.mod_add_mod, Nat.add_assoc]
  unfold iterNext
  rw [hmod]
  split_ifs with hend
  · rw [hend, Nat.mod_self]
  · exact (Nat.mod_eq_of_lt (by omega)).symm

theorem add_mod_ne_origin {j : ℕ} (ho : origin < ring.length) (h0 : 0 < j) (hj : j < ring.length) :
    (origin + j) % ring.length ≠ origin := by
  intro he
  rcases Nat.lt_or_ge (origin + j) ring.length with hl | hl
  · rw [Nat.mod_eq_of_lt hl] at he
    omega
  · rw [Nat.mod_eq_sub_mod hl, Nat.mod_eq_of_lt (by omega)] at he
    omega

/-- The node the iterator is at, and those it has before it. -/
theorem drop_rotate {j : ℕ} (ho : origin < ring.length) (hj : j < ring.length) :
    ∃ r, ring[(origin + j) % ring.length]? = some r ∧
      (ring.rotate origin).drop j = r :: (ring.rotate origin).drop (j + 1) := by
  obtain ⟨r, hr⟩ : ∃ r, ring[(origin + j) % ring.length]? = some r :=
    ⟨_, List.getElem?_eq_getElem (Nat.mod_lt _ (Nat.zero_lt_of_lt ho))⟩
  have hrot : (ring.rotate origin)[j]? = some r := by
    rw [List.getElem?_rotate hj, Nat.add_comm]
    exact hr
  obtain ⟨hl, rfl⟩ := List.getElem?_eq_some_iff.1 hrot
  exact ⟨_, hr, List.drop_eq_getElem_cons hl⟩

theorem drop_rotate_length : (ring.rotate origin).drop ring.length = [] :=
  List.drop_of_length_le (by rw [List.length_rotate])

/-- The walk from the `j`-th node after the origin stops at the first that it does not skip, or
comes back to the origin. -/
theorem seek_rotate (skip : Node → Bool) (ho : origin < ring.length) :
    ∀ (fuel j : ℕ), 0 < j → j ≤ ring.length → ring.length ≤ j + fuel →
    (∃ pre r post, (ring.rotate origin).drop j = pre ++ r :: post ∧ (∀ x ∈ pre, skip x = true) ∧
      skip r = false ∧ seek ring origin skip fuel ((origin + j) % ring.length) =
        some ((origin + (j + pre.length)) % ring.length, r)) ∨
    (∀ x ∈ (ring.rotate origin).drop j, skip x = true) ∧
      seek ring origin skip fuel ((origin + j) % ring.length) = none
  | 0, j, _, hj, hf => by
    obtain rfl : j = ring.length := by omega
    rw [drop_rotate_length]
    exact .inr ⟨List.forall_mem_nil _, rfl⟩
  | fuel + 1, j, h0, hj, hf => by
    rcases Nat.lt_or_ge j ring.length with hlt | hge
    · obtain ⟨r, hr, hdrop⟩ := drop_rotate ho hlt
      simp only [seek, add_mod_ne_origin ho h0 hlt, if_false, hr]
      by_cases hs : skip r = true
      · rw [if_pos hs, iterNext_rotate ho, hdrop]
        rcases seek_rotate skip ho fuel (j + 1) (Nat.succ_pos j) hlt (by omega) with
          ⟨pre, r', post, hd, hpre, hr', hseek⟩ | ⟨hall, hseek⟩
        · refine .inl ⟨r :: pre, r', post, by rw [hd]; rfl,
            List.forall_mem_cons.2 ⟨hs, hpre⟩, hr', ?_⟩
          rw [hseek, List.length_cons, show j + 1 + pre.length = j + (pre.length + 1) by omega]
        · exact .inr ⟨List.forall_mem_cons.2 ⟨hs, hall⟩, hseek⟩
      · rw [if_neg hs]
        exact .inl ⟨[], r, _, hdrop, by simp, Bool.eq_false_of_not_eq_true hs, rfl⟩
    · obtain rfl : j = ring.length := by omega
      refine .inr ⟨?_, ?_⟩
      · rw [drop_rotate_length]
        exact List.forall_mem_nil _
      · rw [Nat.add_mod_right, Nat.mod_eq_of_lt ho]
        simp [seek]

end Walk

section Assign

open Distinct

variable {hs : HashSpace} {h : UInt64}

theorem ringFrom_eq (hs : HashSpace) (h : UInt64) :
    hs.ringFrom h = hs.reals.rotate (hs.find h) := by
  have hp : (fun v : VirtualNode => decide (h ≤ v.hash)) = fun v => !decide (v.hash < h) := by
    funext v
    rw [Bool.eq_iff_iff]
    simp
  unfold ringFrom find reals
  simp only [hp]
  have hle : hs.hashspace.findIdx (fun v => !decide (v.hash < h)) ≤ hs.hashspace.length :=
    List.findIdx_le_length
  split_ifs with hend
  · rw [hend, List.rotate_zero]
    simp
  · rw [List.rotate_eq_drop_append_take (by simpa using hle), List.map_append, List.map_drop,
      List.map_take]

theorem find_lt (hne : hs.hashspace ≠ []) : hs.find h < hs.reals.length := by
  have hpos := List.length_pos_iff.2 hne
  have hle : hs.hashspace.findIdx (fun v => !decide (v.hash < h)) ≤ hs.hashspace.length :=
    List.findIdx_le_length
  unfold find reals
  simp only [List.length_map]
  split_ifs with hend
  · exact hpos
  · omega

/-- What both walks see: the first node, the next other one and the next after that, as far as the
ring has them. -/
theorem walk_cases (hne : hs.hashspace ≠ []) : ∃ r0, hs.reals[hs.find h]? = some r0 ∧
    ((distinct [] (hs.ringFrom h) = [r0] ∧ seek hs.reals (hs.find h) (· == r0) hs.reals.length
        (iterNext hs.reals.length (hs.find h)) = none) ∨
      ∃ it r1, seek hs.reals (hs.find h) (· == r0) hs.reals.length
          (iterNext hs.reals.length (hs.find h)) = some (it, r1) ∧
        ((distinct [] (hs.ringFrom h) = [r0, r1] ∧ seek hs.reals (hs.find h)
            (fun r => r == r0 || r == r1) hs.reals.length (iterNext hs.reals.length it) = none) ∨
          ∃ it' r2 rest, seek hs.reals (hs.find h) (fun r => r == r0 || r == r1) hs.reals.length
              (iterNext hs.reals.length it) = some (it', r2) ∧
            distinct [] (hs.ringFrom h) = r0 :: r1 :: r2 :: rest)) := by
  have ho := find_lt (h := h) hne
  have hr0 : (hs.ringFrom h)[0]? = hs.reals[hs.find h]? := by
    rw [ringFrom_eq, List.getElem?_rotate (Nat.zero_lt_of_lt ho), Nat.zero_add,
      Nat.mod_eq_of_lt ho]
  have hnext : iterNext hs.reals.length (hs.find h) = (hs.find h + 1) % hs.reals.length := by
    have := iterNext_rotate (j := 0) ho
    rwa [Nat.add_zero, Nat.mod_eq_of_lt ho] at this
  obtain ⟨r0, h0⟩ : ∃ r0, hs.reals[hs.find h]? = some r0 := ⟨_, List.getElem?_eq_getElem ho⟩
  have hring : hs.ringFrom h = [] ++ r0 :: (hs.reals.rotate (hs.find h)).drop 1 := by
    rw [h0, ringFrom_eq] at hr0
    rw [ringFrom_eq]
    obtain ⟨hl, rfl⟩ := List.getElem?_eq_some_iff.1 hr0
    exact List.drop_eq_getElem_cons hl
  refine ⟨r0, h0, ?_⟩
  rw [hnext, hring, distinct_append (by simp) List.not_mem_nil]
  rcases seek_rotate (· == r0) ho hs.reals.length 1 Nat.one_pos (by omega) (by omega) with
    ⟨pre, r1, post, hd, hpre, hr1, hseek⟩ | ⟨hall, hseek⟩
  · right
    rw [hd, distinct_append (by simpa using hpre) (by simpa using hr1)]
    refine ⟨_, r1, hseek, ?_⟩
    have hpost : post = (hs.reals.rotate (hs.find h)).drop (1 + pre.length + 1) := by
      rw [← List.drop_drop, ← List.drop_drop, hd, List.drop_left]
      rfl
    have hlen : 1 + pre.length + 1 ≤ hs.reals.length := by
      have hl := congrArg List.length hd
      simp only [List.length_drop, List.length_rotate, List.length_append, List.length_cons] at hl
      omega
    rw [iterNext_rotate ho]
    rcases seek_rotate (fun r => r == r0 || r == r1) ho hs.reals.length
        (1 + pre.length + 1) (by omega) hlen (by omega) with
      ⟨pre', r2, post', hd', hpre', hr2, hseek'⟩ | ⟨hall', hseek'⟩
    · right
      refine ⟨_, r2, distinct [r2, r1, r0] post', hseek', ?_⟩
      rw [hpost, hd', distinct_append]
      · simpa [or_comm] using hpre'
      · simpa [and_comm] using hr2
    · left
      refine ⟨?_, hseek'⟩
      rw [hpost, distinct_of_seen]
      simpa [or_comm] using hall'
  · left
    refine ⟨?_, hseek⟩
    rw [distinct_of_seen]
    simpa using hall

theorem eachAssign_eq_take (hne : hs.hashspace ≠ []) :
    hs.eachAssign h = (hs.ringFrom h).eraseDups.take (numReplication + 1) := by
  rw [← distinct_nil]
  unfold eachAssign
  obtain ⟨r0, h0, ⟨hd, h1⟩ | ⟨it, r1, h1, ⟨hd, h2⟩ | ⟨it', r2, rest, h2, hd⟩⟩⟩ :=
    walk_cases (h := h) hne
  · simp only [h0, h1, hd]
    rfl
  · simp only [h0, h1, h2, hd]
    rfl
  · simp only [h0, h1, h2, hd]
    rfl

end Assign

section Seed

variable {hash : Bytes → UInt64} {s : Seed} {h : UInt64}

theorem mem_reals_of_mem (hash : Bytes → UInt64) {r : Node} (hr : r ∈ s.nodes) :
    r ∈ (ofSeed hash s).reals := by
  have hmem : ∀ (ns : List Node) (ring : List VirtualNode), r ∈ ns ∨ (∃ v ∈ ring, v.real = r) →
      ∃ v ∈ ns.foldl (addVirtualNodes hash) ring, v.real = r := by
    intro ns
    induction ns with
    | nil =>
      rintro ring (hr | hr)
      · exact absurd hr List.not_mem_nil
      · exact hr
    | cons n ns ih =>
      rintro ring (hr | ⟨v, hv, rfl⟩)
      · rcases List.mem_cons.1 hr with rfl | hr
        · refine ih _ (.inr ⟨⟨hash r.addr.dump, r⟩, List.mem_append_right _ ?_, rfl⟩)
          exact List.mem_map.2 ⟨_, List.mem_cons_self, rfl⟩
        · exact ih _ (.inl hr)
      · exact ih _ (.inr ⟨v, List.mem_append_left _ hv, rfl⟩)
  obtain ⟨v, hv, rfl⟩ := hmem s.nodes [] (.inl hr)
  exact List.mem_map.2 ⟨v, (List.mem_insertionSort _).2 hv, rfl⟩

theorem mem_ringFrom {r : Node} : r ∈ (ofSeed hash s).ringFrom h ↔ r ∈ s.nodes := by
  rw [ringFrom_eq, List.mem_rotate]
  constructor
  · intro hr
    obtain ⟨v, hv, rfl⟩ := List.mem_map.1 hr
    exact mem_rehash hash hv
  · exact mem_reals_of_mem hash

theorem hashspace_ne_nil (hash : Bytes → UInt64) (hne : s.nodes ≠ []) :
    (ofSeed hash s).hashspace ≠ [] := by
  obtain ⟨r, hr⟩ := List.exists_mem_of_ne_nil _ hne
  obtain ⟨v, hv, -⟩ := List.mem_map.1 (mem_reals_of_mem hash hr)
  exact List.ne_nil_of_mem hv

theorem length_eachAssign (hash : Bytes → UInt64) (h : UInt64) (hne : s.nodes ≠ [])
    (hd : s.nodes.Nodup) :
    ((ofSeed hash s).eachAssign h).length = min (numReplication + 1) s.nodes.length := by
  rw [eachAssign_eq_take (hashspace_ne_nil hash hne), List.length_take,
    Distinct.length_eraseDups hd fun r => mem_ringFrom]

theorem hashspace_sorted (hash : Bytes → UInt64) (s : Seed) :
    RingSorted (ofSeed hash s).hashspace :=
  stableSort_sorted _

end Seed

end Kumofs.HashSpace

namespace Kumofs.Gateway

open HashSpace Server

variable {hs : HashSpace} {h : UInt64}

/-- The gateway stops at the first active node of the assignment from `offset` on. -/
theorem serverFor_eq (hne : hs.hashspace ≠ []) (he : hs.empty = false) {offset : ℕ}
    (ho : offset ≤ numReplication) {r : Node}
    (hr : ((hs.eachAssign h).drop offset).find? (·.active) = some r) :
    serverFor hs h offset = .ok r.addr := by
  unfold eachAssign at hr
  unfold serverFor
  simp only [he, Bool.false_eq_true, if_false]
  have hcases : offset = 0 ∨ offset = 1 ∨ offset = 2 := by
    unfold numReplication at ho
    omega
  obtain ⟨r0, h0, ⟨-, h1⟩ | ⟨it, r1, h1, ⟨-, h2⟩ | ⟨it', r2, rest, h2, -⟩⟩⟩ :=
    walk_cases (h := h) hne
  · simp only [h0, h1] at hr ⊢
    rcases hcases with rfl | rfl | rfl <;> grind
  · simp only [h0, h1, h2] at hr ⊢
    rcases hcases with rfl | rfl | rfl <;> grind
  · simp only [h0, h1, h2] at hr ⊢
    rcases hcases with rfl | rfl | rfl <;> grind

/-- The walks of servers and gateways over a hash space built from a seed: the one takes the first
distinct nodes of the ring from `h` on, the other the first active one of these from `offset` on,
and its server finds itself assigned. -/
theorem walks_agree (hash : Bytes → UInt64) {s : Seed} (hne : s.nodes ≠ [])
    (hd : (s.nodes.map (·.addr)).Nodup) (h : UInt64) :
    ((ofSeed hash s).hashspace.Pairwise fun v w => v.hash ≤ w.hash) ∧
    (ofSeed hash s).eachAssign h =
      ((ofSeed hash s).ringFrom h).eraseDups.take (min (numReplication + 1) s.nodes.length) ∧
    ((ofSeed hash s).eachAssign h).length = min (numReplication + 1) s.nodes.length ∧
    ∀ offset ≤ numReplication, ∀ r,
      (((ofSeed hash s).eachAssign h).drop offset).find? (·.active) = some r →
        serverFor (ofSeed hash s) h offset = .ok r.addr ∧
          checkReplicatorAssign r.addr (ofSeed hash s) h = .ok () := by
  have hring := hashspace_ne_nil hash hne
  have hnodup : s.nodes.Nodup := hd.of_map _
  have hlen := length_eachAssign hash h hne hnodup
  refine ⟨hashspace_sorted hash s, ?_, hlen, fun offset ho r hr => ?_⟩
  · rw [← hlen, eachAssign_eq_take hring, List.length_take, List.take_eq_take_iff]
    omega
  · have hmem := List.mem_of_mem_drop (List.mem_of_find?_eq_some hr)
    have hact : r.active = true := by simpa using List.find?_some hr
    have he : (ofSeed hash s).empty = false := by
      by_contra he
      have := not_active_of_empty (Bool.eq_true_of_not_eq_false he) hmem
      rw [hact] at this
      cases this
    refine ⟨serverFor_eq hring he ho hr, ?_⟩
    unfold checkReplicatorAssign
    rw [if_neg (by simp [he]), if_pos (List.any_eq_true.2 ⟨r, hmem, by simp [hact]⟩)]

section Sample

open Sample

/-- Four servers of which the second is faulty. -/
def fourSeed : Seed := ⟨[⟨svr 1, true⟩, ⟨svr 2, false⟩, ⟨svr 3, true⟩, ⟨svr 4, true⟩], .mk' 1 1000⟩

theorem walks_agree_fourSeed :
    (ofSeed zeroHash fourSeed).eachAssign 0 = [⟨svr 1, true⟩, ⟨svr 2, false⟩, ⟨svr 3, true⟩] ∧
      ((ofSeed zeroHash fourSeed).eachAssign 0).length = min (numReplication + 1) 4 ∧
      serverFor (ofSeed zeroHash fourSeed) 0 1 = .ok (svr 3) ∧
      checkReplicatorAssign (svr 3) (ofSeed zeroHash fourSeed) 0 = .ok () := by
  have hassign := eachAssign_zeroHash (s := fourSeed) rfl (by decide) (by decide) (by decide)
  obtain ⟨-, -, hlen, hserver⟩ :=
    walks_agree zeroHash (s := fourSeed) (by decide) (by decide) 0
  obtain ⟨hfor, hcheck⟩ := hserver 1 (by decide) ⟨svr 3, true⟩ (by rw [hassign]; decide)
  exact ⟨hassign, hlen, hfor, hcheck⟩

end Sample

end Kumofs.Gateway
