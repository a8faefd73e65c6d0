import Kumofs.Rpc.VrefBuffer

/-!
# The bytes of a message

The pieces of the buffer are the bytes that were written, although the stack they were on is used
again.
-/

namespace Kumofs.Rpc

open Machine (Run Free)

namespace VrefBuffer

variable {s t : VrefBuffer} {a : Act} {as : List Act} {buf len m : ℕ} {mem : Memory} {bs : Bytes}

theorem read_apart (h : s.apart m bs.length = true) {v : ℕ × ℕ} (hv : v ∈ s.vec) :
    (s.mem.write m bs).read v.1 v.2 = s.mem.read v.1 v.2 := by
  refine Memory.read_write_of_disjoint ?_
  simpa using List.all_eq_true.1 h v hv

/-- The pieces stay what they are. -/
theorem flatMap_apart (h : s.apart m bs.length = true) :
    (s.vec.flatMap fun v => (s.mem.write m bs).read v.1 v.2) = s.bytes := by
  unfold bytes
  rw [List.flatMap_def, List.flatMap_def]
  exact congrArg _ (List.map_congr_left fun v hv => read_apart h hv)

theorem bytes_appendRef (s : VrefBuffer) (buf len : ℕ) :
    (s.appendRef buf len).bytes = s.bytes ++ s.mem.read buf len := by
  simp [bytes, appendRef, List.flatMap_append]

/-- A copy goes to the end of the last piece, or is a piece of its own. -/
theorem bytes_appendCopy (h : s.apart m len = true) :
    (s.appendCopy buf len m).bytes = s.bytes ++ s.mem.read buf len := by
  have hlen : (s.mem.read buf len).length = len := Memory.length_read ..
  have hcopy : (s.mem.write m (s.mem.read buf len)).read m len = s.mem.read buf len := by
    have := Memory.read_write_self s.mem m (s.mem.read buf len)
    rwa [hlen] at this
  have hold : (s.vec.flatMap fun v => (s.mem.write m (s.mem.read buf len)).read v.1 v.2) =
      s.bytes := flatMap_apart (by rwa [hlen])
  have hpiece : ({ s with mem := s.mem.write m (s.mem.read buf len) }.appendRef m len).bytes =
      s.bytes ++ s.mem.read buf len := by
    rw [bytes_appendRef]
    show (s.vec.flatMap fun v => (s.mem.write m (s.mem.read buf len)).read v.1 v.2) ++
      (s.mem.write m (s.mem.read buf len)).read m len = _
    rw [hold, hcopy]
  unfold appendCopy
  simp only []
  split
  · rename_i base n hlast
    split_ifs with hend
    · have hvec : s.vec = s.vec.dropLast ++ [(base, n)] := by
        rw [List.getLast?_eq_some_iff] at hlast
        obtain ⟨l, hl⟩ := hlast
        simp [hl]
      show ((s.vec.dropLast ++ [(base, n + len)]).flatMap
        fun v => (s.mem.write m (s.mem.read buf len)).read v.1 v.2) = _
      rw [hvec] at hold
      rw [List.flatMap_append, List.flatMap_singleton] at hold ⊢
      rw [Memory.read_append, hend, hcopy, ← List.append_assoc, hold]
    · exact hpiece
  · exact hpiece

theorem bytes_step (hs : s.bytes = s.written) (h : s.step a = some t) : t.bytes = t.written := by
  cases a with
  | write buf len m =>
    simp only [step] at h
    split_ifs at h with hapart
    cases h
    unfold write
    simp only []
    split_ifs with hlen
    · exact (bytes_appendRef s buf len).trans (by rw [hs])
    · exact (bytes_appendCopy (hapart (Nat.not_lt.1 hlen))).trans (by rw [hs])
  | others a bs =>
    simp only [step] at h
    split_ifs at h with hapart
    cases h
    exact (flatMap_apart hapart).trans hs

/-- Whatever is written elsewhere meanwhile, the pieces are the bytes of all the calls of `write`,
in their order. -/
theorem bytes_eq_written (h : Run step Free (init mem) as s) : s.bytes = s.written :=
  h.inv (I := fun s => s.bytes = s.written) (fun _ _ _ hs _ hst => bytes_step hs hst) rfl

/-- Two pieces from the same place on the stack, and a long one. -/
def packing : List Act := [.write 0 3 100, .others 0 [7, 8, 9], .write 0 1 103, .write 200 40 0,
  .others 0 [1]]

theorem bytes_eq_written_packing : ∃ s, Run step Free (init fun x => UInt8.ofNat x) packing s ∧
    s.vec = [(100, 4), (200, 40)] ∧ s.bytes.take 5 = [0, 1, 2, 7, 200] := by
  have hrun : Run step Free (init fun x => UInt8.ofNat x) packing _ := Machine.exec_run rfl
  refine ⟨_, hrun, rfl, ?_⟩
  rw [bytes_eq_written hrun]
  rfl

end VrefBuffer

end Kumofs.Rpc
