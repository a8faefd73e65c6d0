import Kumofs.Proofs.Hash
import Kumofs.Storage
import Kumofs.System.Managers

/-!
# A small cluster

The addresses the fixed runs use, and a hash that puts every virtual node at one place, so that
the ring keeps the order of the node list and a walk from hash 0 visits its first three nodes.
-/

namespace Kumofs.Sample

open HashSpace

/-- `10.0.0.n:19800`. -/
def svr (n : UInt8) : Address := ⟨[0x4d, 0x58, 10, 0, 0, n]⟩

/-- `10.0.1.n:19700`. -/
def mgr (n : UInt8) : Address := ⟨[0x4c, 0xf4, 10, 0, 1, n]⟩

def zeroHash : Bytes → UInt64 := fun _ => 0

/-- The servers of these numbers, all active. -/
def seedOf (ns : List UInt8) (ct : ClockTime) : Seed := ⟨ns.map fun n => ⟨svr n, true⟩, ct⟩

def oneSeed : Seed := seedOf [1] (.mk' 1 1000)

def twoSeed : Seed := seedOf [1, 2] (.mk' 2 1000)

/-- The key `k`, of hash 0. -/
def entryKey : Bytes := [0, 0, 0, 0, 0, 0, 0, 0, 107]

/-- The value `v`, written at clock 1 of second 1000. -/
def entryVal : Bytes := [0, 0, 3, 232, 0, 0, 0, 1, 0, 0, 118]

theorem meta_le_entryKey : keyMetaSize ≤ entryKey.length := by decide

theorem meta_le_entryVal : valueMetaSize ≤ entryVal.length := by decide

/-- Two managers, each the other's partner. -/
def pair : Managers :=
  .init (fun i => mgr (if i then 2 else 1)) (fun i => mgr (if i then 1 else 2))
    (fun _ => ⟨1, 1000⟩) (fun _ => true)

theorem virtualHashes_zeroHash : ∀ n, virtualHashes zeroHash n 0 = List.replicate n 0
  | 0 => rfl
  | n + 1 => by
    rw [List.replicate_succ, ← virtualHashes_zeroHash n]
    rfl

theorem foldl_zeroHash : ∀ (ns : List Node) (ring : List VirtualNode),
    ns.foldl (addVirtualNodes zeroHash) ring =
      ring ++ ns.flatMap fun n => List.replicate virtualNodeNumber ⟨0, n⟩
  | [], ring => by simp
  | n :: ns, ring => by
    have hn : addVirtualNodes zeroHash ring n = ring ++ List.replicate virtualNodeNumber ⟨0, n⟩ := by
      unfold addVirtualNodes
      rw [show zeroHash n.addr.dump = 0 from rfl, virtualHashes_zeroHash, List.map_replicate]
    rw [List.foldl_cons, foldl_zeroHash ns, hn, List.flatMap_cons, List.append_assoc]

theorem rehash_zeroHash (ns : List Node) : rehash zeroHash ns =
    ns.flatMap fun n => List.replicate virtualNodeNumber ⟨0, n⟩ := by
  unfold rehash stableSort
  rw [foldl_zeroHash, List.nil_append]
  refine List.Pairwise.insertionSort_eq (List.pairwise_of_forall_mem_list fun x hx y hy => ?_)
  obtain ⟨n, -, hn⟩ := List.mem_flatMap.1 hx
  obtain ⟨m, -, hm⟩ := List.mem_flatMap.1 hy
  rw [List.eq_of_mem_replicate hn, List.eq_of_mem_replicate hm]
  exact UInt64.le_refl _

/-- Three runs of equal nodes, one after the other, are three nodes to the walk. -/
theorem walk_replicate {ring : List Node} {m : ℕ} {a b c : Node} {l : List Node} (hm : 0 < m)
    (hring : ring = List.replicate m a ++ (List.replicate m b ++ (List.replicate m c ++ l)))
    (hab : b ≠ a) (hac : c ≠ a) (hbc : c ≠ b) :
    ring[0]? = some a ∧
      seek ring 0 (· == a) ring.length (iterNext ring.length 0) = some (m, b) ∧
      seek ring 0 (fun r => r == a || r == b) ring.length (iterNext ring.length m) =
        some (m + m, c) := by
  have hlen : m + m + m ≤ ring.length := by
    rw [hring]
    simp only [List.length_append, List.length_replicate]
    omega
  have ha : ∀ j < m, ring[j]? = some a := fun j hj => by
    rw [hring, List.getElem?_append_left (by simpa using hj), List.getElem?_replicate, if_pos hj]
  have hb : ∀ j < m, ring[m + j]? = some b := fun j hj => by
    rw [hring, List.getElem?_append_right (by simp), List.length_replicate,
      Nat.add_sub_cancel_left, List.getElem?_append_left (by simpa using hj),
      List.getElem?_replicate, if_pos hj]
  have hc : ring[m + m]? = some c := by
    rw [hring, List.getElem?_append_right (by simp), List.length_replicate,
      Nat.add_sub_cancel_left, List.getElem?_append_right (by simp), List.length_replicate,
      Nat.sub_self, List.getElem?_append_left (by simpa using hm), List.getElem?_replicate,
      if_pos hm]
  have hnext : ∀ i, i + 1 < ring.length → iterNext ring.length i = i + 1 := fun i hi => by
    unfold iterNext
    rw [if_neg (Nat.ne_of_lt hi)]
  refine ⟨ha 0 hm, ?_, ?_⟩
  · rw [hnext 0 (by omega)]
    have hseek : seek ring 0 (· == a) ring.length (0 + 1) = some (0 + 1 + (m - 1), b) :=
      seek_of_skips (m - 1) ring.length (0 + 1) (by omega) (by omega)
        (fun j hj => ⟨a, ha _ (by omega), by simp⟩)
        (by rw [show 0 + 1 + (m - 1) = m + 0 by omega]; exact hb 0 hm) (by simpa using hab)
    rw [hseek, show 0 + 1 + (m - 1) = m by omega]
  · rw [hnext m (by omega)]
    have hseek : seek ring 0 (fun r => r == a || r == b) ring.length (m + 1) =
        some (m + 1 + (m - 1), c) :=
      seek_of_skips (m - 1) ring.length (m + 1) (by omega) (by omega)
        (fun j hj => ⟨b, by rw [Nat.add_assoc]; exact hb _ (by omega), by simp⟩)
        (by rw [show m + 1 + (m - 1) = m + m by omega]; exact hc) (by simp [hac, hbc])
    rw [hseek, show m + 1 + (m - 1) = m + m by omega]

/-- The walk from hash 0 visits the first three nodes of the list. -/
theorem eachAssign_zeroHash {s : Seed} {a b c : Node} {l : List Node}
    (hs : s.nodes = a :: b :: c :: l) (hab : b ≠ a) (hac : c ≠ a) (hbc : c ≠ b) :
    (ofSeed zeroHash s).eachAssign 0 = [a, b, c] := by
  obtain ⟨m, hm, hv⟩ : ∃ m, 0 < m ∧ virtualNodeNumber = m := ⟨_, by decide, rfl⟩
  have hring : (ofSeed zeroHash s).reals = List.replicate m a ++ (List.replicate m b ++
      (List.replicate m c ++ l.flatMap fun n => List.replicate m n)) := by
    simp only [reals, ofSeed, rehash_zeroHash, hs, hv, List.flatMap_cons,
      List.map_append, List.map_replicate, List.map_flatMap]
  have hfind : (ofSeed zeroHash s).find 0 = 0 := by
    simp only [find, ofSeed, rehash_zeroHash, hs, hv, List.flatMap_cons]
    obtain ⟨k, rfl⟩ : ∃ k, m = k + 1 := ⟨m - 1, by omega⟩
    simp [List.replicate_succ, List.findIdx_cons]
  obtain ⟨h0, h1, h2⟩ := walk_replicate hm hring hab hac hbc
  unfold eachAssign
  simp only [hfind, h0, h1, h2]

end Kumofs.Sample
