import Kumofs.Gate.StreamBuffer
import Kumofs.Proofs.Memproto

/-!
# What a stream buffer keeps

As long as no more is consumed than there is room for, the numbers of the buffer tell of its block
what they mean: reserving room leaves the data as it is, whether the buffer is rewound, enlarged or
moved, and what is read comes behind the data.
-/

namespace Kumofs.Gate

open Memproto (sizeSub sizeSub_eq)

theorem sizeAdd_eq {a b : ℕ} (h : a + b < 2 ^ 64) : sizeAdd a b = a + b := Nat.mod_eq_of_lt h

/-- The size is doubled until it is enough, and not once more. -/
theorem growSize_some (target : ℕ) (ht : target ≤ 2 ^ 62) : ∀ (k rounds size : ℕ), k < rounds →
    size ≤ 2 ^ 63 → target ≤ size * 2 ^ k →
      ∃ r, growSize target rounds size = some r ∧ target ≤ r ∧ size ≤ r ∧
        r ≤ max size (2 * target) := by
  intro k
  induction k with
  | zero =>
    intro rounds size hr _ hle
    obtain ⟨rounds, rfl⟩ := Nat.exists_eq_succ_of_ne_zero (Nat.ne_of_gt hr)
    have hlt : ¬ size < target := by omega
    refine ⟨size, ?_, by omega, le_rfl, le_max_left _ _⟩
    rw [growSize, if_neg hlt]
  | succ k ih =>
    intro rounds size hr hs hle
    obtain ⟨rounds, rfl⟩ := Nat.exists_eq_succ_of_ne_zero (Nat.ne_of_gt (Nat.zero_lt_of_lt hr))
    by_cases hlt : size < target
    · have hmod : size * 2 % 2 ^ 64 = size * 2 := Nat.mod_eq_of_lt (by omega)
      have hk : target ≤ size * 2 * 2 ^ k := by
        rw [Nat.mul_assoc, ← Nat.pow_succ']
        exact hle
      obtain ⟨r, hgrow, hr1, hr2, hr3⟩ := ih rounds (size * 2) (by omega) (by omega) hk
      refine ⟨r, ?_, hr1, by omega, by omega⟩
      rw [growSize, if_pos hlt, hmod, hgrow]
    · refine ⟨size, ?_, by omega, le_rfl, le_max_left _ _⟩
      rw [growSize, if_neg hlt]

namespace StreamBuffer

/-- The numbers of a buffer tell where its data is in the block, and where there is room. -/
structure Wf (b : StreamBuffer) : Prop where
  count_pos : 0 < b.count
  le_off : countSize ≤ b.off
  off_le : b.off ≤ b.used
  length_mem : b.mem.length = b.used + b.free
  bounded : b.mem.length ≤ 2 ^ 62

variable {b : StreamBuffer} {len size : ℕ} {bytes : Bytes}

namespace Wf

theorem dataSize_eq (h : b.Wf) : b.dataSize = b.used - b.off := by
  have := h.off_le
  have := h.length_mem
  have := h.bounded
  exact sizeSub_eq h.off_le (by omega)

theorem length_data (h : b.Wf) : b.data.length = b.dataSize := by
  have hd := h.dataSize_eq
  have := h.length_mem
  unfold data behind
  rw [List.length_take, List.length_drop]
  omega

/-- The data, and the room behind it. -/
theorem behind_eq (h : b.Wf) : b.behind = b.data ++ b.mem.drop b.used := by
  have hoff := h.off_le
  unfold data
  rw [← List.take_append_drop b.dataSize b.behind, List.take_append_of_le_length,
    List.take_take, min_self, behind, List.drop_drop, h.dataSize_eq,
    show b.off + (b.used - b.off) = b.used by omega]
  rw [List.length_take]
  unfold behind
  rw [List.length_drop, h.dataSize_eq, h.length_mem]
  omega

end Wf

theorem init_wf (hs : size ≤ 2 ^ 62) : (init size).Wf := by
  refine ⟨Nat.one_pos, le_rfl, le_rfl, ?_, ?_⟩
  · simp only [init, malloc, List.length_replicate]
    omega
  · simp only [init, malloc, List.length_replicate, countSize]
    omega

theorem data_init : (init size).data = [] := by
  have hz : (init size).dataSize = 0 := 
    sizeSub_eq (le_refl countSize) (show countSize < 2 ^ 64 by decide)
  unfold data
  rw [hz, List.take_zero]

theorem rewind_wf (h : b.Wf) : b.rewind.Wf := by
  have hoff := h.off_le
  have hc := h.le_off
  have hlen := h.length_mem
  have hb := h.bounded
  unfold rewind
  split_ifs with hr
  · have hfree : sizeAdd b.free (sizeSub b.used countSize) = b.free + (b.used - countSize) := by
      rw [sizeSub_eq (by omega) (by omega), sizeAdd_eq (by omega)]
    refine ⟨h.count_pos, le_rfl, le_rfl, ?_, hb⟩
    simp only [hfree]
    omega
  · exact h

theorem data_rewind (h : b.Wf) : b.rewind.data = b.data := by
  have hsize := h.dataSize_eq
  have hr := (rewind_wf h).dataSize_eq
  unfold data
  rw [hsize, hr]
  unfold rewind
  split_ifs with hu
  · rw [hu.1, Nat.sub_self, Nat.sub_self, List.take_zero, List.take_zero]
  · rfl

/-- `L` bounds what has to be in the block. -/
theorem expandBuffer_some {L : ℕ} (h : b.Wf) (hfree : b.free < len)
    (hL : b.dataSize + len + size + countSize ≤ L) (hL' : L ≤ 2 ^ 61) (hsize : 0 < size) :
    ∃ b', b.expandBuffer len size = some b' ∧ b'.Wf ∧ b'.data = b.data ∧ len ≤ b'.free ∧
      b'.mem.length ≤ 2 * L := by
  have hc := h.le_off
  have hoff := h.off_le
  have hlen := h.length_mem
  have hbound := h.bounded
  have hd := h.dataSize_eq
  unfold expandBuffer
  split_ifs with hin
  · have htarget : sizeAdd len b.used = len + b.used := sizeAdd_eq (by omega)
    have hdouble : sizeAdd b.used b.free * 2 % 2 ^ 64 = (b.used + b.free) * 2 := by
      rw [sizeAdd_eq (by omega)]
      omega
    have henough : len + b.used ≤ (b.used + b.free) * 2 * 2 ^ 62 := by
      have hpos : 1 ≤ b.used := by unfold countSize at hc; omega
      omega
    obtain ⟨r, hgrow, hr1, hr2, hr3⟩ := growSize_some (len + b.used) (by omega) 62 65
      ((b.used + b.free) * 2) (by decide) (by omega) henough
    have hr : r ≤ 2 * L := by omega
    have hsub : sizeSub r b.used = r - b.used := sizeSub_eq (by omega) (by omega)
    have hlenr : (b.mem.take r ++ malloc (r - b.mem.length)).length = r := by
      rw [malloc, List.length_append, List.length_take, List.length_replicate]
      omega
    rw [htarget, hdouble, hgrow]
    refine ⟨_, rfl, ⟨h.count_pos, hc, hoff, ?_, ?_⟩, ?_, ?_, ?_⟩
    · simp only [hlenr, hsub]
      omega
    · simp only [hlenr]
      omega
    · unfold data behind dataSize
      simp only []
      rw [List.take_of_length_le (show b.mem.length ≤ r by omega),
        List.drop_append_of_le_length (by omega), List.take_append_of_le_length]
      rw [List.length_drop, ← dataSize]
      omega
    · simp only [hsub]
      omega
    · simp only [hlenr]
      exact hr
  · have hnot : sizeSub b.used b.off = b.used - b.off := sizeSub_eq hoff (by omega)
    have htarget : sizeAdd (sizeAdd len (b.used - b.off)) countSize =
        len + (b.used - b.off) + countSize := by
      rw [sizeAdd_eq (a := len) (by omega), sizeAdd_eq (by omega)]
    obtain ⟨r, hgrow, hr1, hr2, hr3⟩ := growSize_some
      (len + (b.used - b.off) + countSize) (by omega) 62 65 (max size countSize)
      (by decide) (by omega) (by omega)
    have hr : r ≤ 2 * L := by omega
    have hread : Memproto.read b.mem b.off (b.used - b.off) = some b.data := by
      unfold Memproto.read
      rw [if_pos (by omega), data, behind, hd]
    have hsum : sizeAdd (b.used - b.off) countSize = b.used - b.off + countSize :=
      sizeAdd_eq (by omega)
    have hsub : sizeSub r (b.used - b.off + countSize) = r - (b.used - b.off + countSize) :=
      sizeSub_eq (by omega) (by omega)
    have hdlen := h.length_data
    simp only [hnot, htarget, hgrow, Option.bind_eq_bind, Option.bind_some, hread, hsum, hsub]
    rw [if_pos (by omega)]
    have hlenr : (malloc countSize ++ (b.data ++ malloc (r - countSize - (b.used - b.off)))).length
        = r := by
      simp only [malloc, List.length_append, List.length_replicate, hdlen]
      omega
    refine ⟨_, rfl, ⟨Nat.one_pos, le_rfl, by simp only []; omega, ?_, ?_⟩, ?_, ?_, ?_⟩
    · simp only [hlenr]
      omega
    · simp only [hlenr]
      omega
    · have hsize' : sizeSub (b.used - b.off + countSize) countSize = b.data.length := by
        rw [sizeSub_eq (by omega) (by omega)]
        omega
      have hbehind : (malloc countSize ++ (b.data ++ malloc (r - countSize - (b.used - b.off)))).drop
          countSize = b.data ++ malloc (r - countSize - (b.used - b.off)) :=
        List.drop_left' (by simp [malloc])
      unfold data behind dataSize at *
      simp only [hsize', hbehind]
      exact List.take_left' rfl
    · simp only []
      omega
    · simp only [hlenr]
      exact hr

/-- Reserving room leaves the data as it is. -/
theorem reserveBuffer_some {L : ℕ} (h : b.Wf) (hL : b.dataSize + len + size + countSize ≤ L)
    (hL' : L ≤ 2 ^ 61) (hsize : 0 < size) (hm : b.mem.length ≤ 2 * L) :
    ∃ b', b.reserveBuffer len size = some b' ∧ b'.Wf ∧ b'.data = b.data ∧ len ≤ b'.free ∧
      b'.mem.length ≤ 2 * L := by
  have hw := rewind_wf h
  have hd := data_rewind h
  have hs : b.rewind.dataSize = b.dataSize := by rw [← hw.length_data, hd, h.length_data]
  unfold reserveBuffer
  split_ifs with hfree
  · obtain ⟨b', he, hw', hd', hrest⟩ := expandBuffer_some hw hfree (by omega) hL' hsize
    exact ⟨b', he, hw', hd'.trans hd, hrest⟩
  · refine ⟨_, rfl, hw, hd, by omega, ?_⟩
    unfold rewind
    split_ifs
    · exact hm
    · exact hm

/-- What is read comes behind the data. -/
theorem consumed_wf (h : b.Wf) (hb : bytes.length ≤ b.free) :
    ((b.put bytes).bufferConsumed bytes.length).Wf ∧
      ((b.put bytes).bufferConsumed bytes.length).data = b.data ++ bytes ∧
      ((b.put bytes).bufferConsumed bytes.length).mem.length = b.mem.length := by
  have hoff := h.off_le
  have hlen := h.length_mem
  have hbound := h.bounded
  have hd := h.length_data
  have hused : sizeAdd b.used bytes.length = b.used + bytes.length := sizeAdd_eq (by omega)
  have hfree : sizeSub b.free bytes.length = b.free - bytes.length := sizeSub_eq hb (by omega)
  have hmem : (b.mem.take b.used ++ (bytes ++ b.mem.drop (b.used + bytes.length))).length =
      b.mem.length := by
    simp only [List.length_append, List.length_take, List.length_drop]
    omega
  have hw : ((b.put bytes).bufferConsumed bytes.length).Wf := by
    refine ⟨h.count_pos, h.le_off, ?_, ?_, ?_⟩
    · simp only [bufferConsumed, put, hused]
      omega
    · simp only [bufferConsumed, put, hused, hfree, hmem]
      omega
    · simp only [bufferConsumed, put, hmem]
      exact hbound
  refine ⟨hw, ?_, hmem⟩
  have hsize : ((b.put bytes).bufferConsumed bytes.length).dataSize =
      b.data.length + bytes.length := by
    rw [hw.dataSize_eq, hd, h.dataSize_eq]
    simp only [bufferConsumed, put, hused]
    omega
  have hdata : (b.mem.take b.used).drop b.off = b.data := by
    rw [List.drop_take, data, behind, h.dataSize_eq]
  have hbehind : ((b.put bytes).bufferConsumed bytes.length).behind =
      (b.data ++ bytes) ++ b.mem.drop (b.used + bytes.length) := by
    simp only [behind, bufferConsumed, put]
    rw [List.drop_append_of_le_length (by rw [List.length_take]; omega), hdata, List.append_assoc]
  rw [data, hbehind, hsize]
  exact List.take_left' (by rw [List.length_append])

/-- What is used goes from the data. -/
theorem dataUsed_wf {n : ℕ} (h : b.Wf) (hn : n ≤ b.dataSize) :
    (b.dataUsed n).Wf ∧ (b.dataUsed n).data = b.data.drop n := by
  have hoff := h.off_le
  have hlen := h.length_mem
  have hbound := h.bounded
  have hc := h.le_off
  have hd := h.dataSize_eq
  have hadd : sizeAdd b.off n = b.off + n := sizeAdd_eq (by omega)
  have hw : (b.dataUsed n).Wf := by
    refine ⟨h.count_pos, ?_, ?_, hlen, hbound⟩
    · simp only [dataUsed, hadd]
      omega
    · simp only [dataUsed, hadd]
      omega
  refine ⟨hw, ?_⟩
  unfold data
  rw [hw.dataSize_eq, hd, List.drop_take]
  simp only [behind, dataUsed, hadd, List.drop_drop]
  rw [show b.used - (b.off + n) = b.used - b.off - n by omega]

/-- What is written before the data leaves the data. -/
theorem setBehind_wf {off : ℕ} {m : Bytes} (h : b.Wf)
    (hlen : (b.mem.take off ++ m).length = b.mem.length)
    (hdrop : (b.mem.take off ++ m).drop b.off = b.mem.drop b.off) :
    (b.setBehind off m).Wf ∧ (b.setBehind off m).data = b.data := by
  refine ⟨⟨h.count_pos, h.le_off, h.off_le, ?_, ?_⟩, ?_⟩
  · exact hlen.trans h.length_mem
  · exact hlen.trans_le h.bounded
  · unfold data behind dataSize setBehind
    simp only [hdrop]

theorem releaseTo_wf (h : b.Wf) : b.releaseTo.Wf :=
  ⟨Nat.succ_pos _, h.le_off, h.off_le, h.length_mem, h.bounded⟩

theorem decrCount_wf {n : ℕ} (h : b.Wf) (hn : n < b.count) : (b.decrCount n).Wf :=
  ⟨Nat.sub_pos_of_lt hn, h.le_off, h.off_le, h.length_mem, h.bounded⟩

/-- The data that is used and held by a request may be overwritten. -/
theorem overwrite_wf {n : ℕ} {m : Bytes} (h : b.Wf) (hn : n ≤ b.dataSize)
    (hm : m.length = n) :
    ∀ b', b' = ((b.dataUsed n).releaseTo.setBehind b.off
      (m ++ b.behind.drop n)) → b'.Wf ∧ b'.data = b.data.drop n ∧ b'.mem.length = b.mem.length := by
  rintro b' rfl
  obtain ⟨hw, hd⟩ := dataUsed_wf h hn
  have hoff : sizeAdd b.off n = b.off + n := by
    have := h.bounded
    have := h.length_mem
    have := h.off_le
    have := h.dataSize_eq
    exact sizeAdd_eq (by omega)
  have hle : b.off + n ≤ b.mem.length := by
    have := h.length_mem
    have := h.off_le
    have := h.dataSize_eq
    omega
  have hlen : (b.mem.take b.off ++ (m ++ b.behind.drop n)).length = b.mem.length := by
    simp only [behind, List.length_append, List.length_take, List.length_drop, hm]
    omega
  have hdrop : (b.mem.take b.off ++ (m ++ b.behind.drop n)).drop (b.off + n) =
      b.mem.drop (b.off + n) := by
    rw [← List.append_assoc, List.drop_left', behind, List.drop_drop]
    rw [List.length_append, List.length_take, hm]
    omega
  have hdrop' : (b.mem.take b.off ++ (m ++ b.behind.drop n)).drop (b.dataUsed n).off =
      b.mem.drop (b.dataUsed n).off := by
    rw [show (b.dataUsed n).off = b.off + n from hoff]
    exact hdrop
  obtain ⟨hw', hd'⟩ := setBehind_wf (b := (b.dataUsed n).releaseTo) (releaseTo_wf hw) hlen hdrop'
  exact ⟨hw', hd'.trans hd, hlen⟩

end StreamBuffer

end Kumofs.Gate
