import Kumofs.Proofs.Parsing

/-!
# What the parser writes

The parser reads its buffer, and the callback of a `set` writes to it: the flags and the time go
right before the data.
-/

namespace Kumofs.Gate.Memtext

variable {m m' : Parsing} {p : ℕ} {a : Action} {q : Option Request} {g : TextGate}

/-- The parser leaves the buffer, or writes the flags and the time before the data. -/
def Wrote (g : TextGate) (m m' : Parsing) : Prop :=
  m'.buf = m.buf ∨ writeBefore m.buf m.ctx.dataPos.toNat
    (g.written m.ctx.flags.toUInt16 m.ctx.exptime) = some m'.buf

theorem call_wrote (h : m.call p q = .ok m') : m'.buf = m.buf ∧ m'.ctx = m.ctx := by
  unfold Parsing.call at h
  split_ifs at h
  rcases q with _ | q
  · cases h
  · cases h
    exact ⟨rfl, rfl⟩

theorem setInteger_buf {f : Memtext.Field} (h : m.setInteger p f = .ok m') : m'.buf = m.buf := by
  unfold Parsing.setInteger at h
  rcases hpos : m.buf[m.ctx.field f]? with _ | b <;> simp only [hpos] at h
  · cases h
  · split_ifs at h
    · cases h
      rfl
    · split at h
      · cases h
      · split_ifs at h
        cases h
        rfl

/-- The value of a `set` is written, and the rest is left. -/
theorem call_write (h : (m.call p q).andThen (Parsing.writeValue · g) = .ok m') :
    m'.ctx = m.ctx ∧ writeBefore m.buf m.ctx.dataPos.toNat
      (g.written m.ctx.flags.toUInt16 m.ctx.exptime) = some m'.buf := by
  rcases hc : m.call p q with m1 | m1 | m1 | m1 <;> rw [hc] at h
  · obtain ⟨hbuf, hctx⟩ := call_wrote hc
    unfold Outcome.andThen Parsing.writeValue at h
    simp only [hbuf, hctx] at h
    split at h
    · cases h
    · next buf hw =>
      cases h
      exact ⟨rfl, hw⟩
  all_goals cases h

/-- What an action does to the buffer. -/
theorem run_wrote (h : m.run p g a = .ok m') : Wrote g m m' := by
  cases a with
  | markKey =>
    simp only [Parsing.run, Parsing.markKey] at h
    split_ifs at h
    cases h
    exact .inl rfl
  | key =>
    simp only [Parsing.run, Parsing.key] at h
    split_ifs at h
    cases h
    exact .inl rfl
  | incrKey =>
    simp only [Parsing.run, Parsing.incrKey] at h
    split_ifs at h
    cases h
    exact .inl rfl
  | number f => exact .inl (setInteger_buf h)
  | data =>
    cases h
    unfold Parsing.data
    simp only []
    split_ifs <;> exact .inl rfl
  | doRetrieval =>
    simp only [Parsing.run, Parsing.doRetrieval] at h
    split_ifs at h
    exact .inl (call_wrote h).1
  | doStorage => exact .inr (call_write h).2
  | doCas => exact .inr (call_write h).2
  | doDelete => exact .inl (call_wrote h).1
  | doNumeric => exact .inl (call_wrote h).1
  | doOther => exact .inl (call_wrote (q := some (.other m.ctx.command)) h).1
  | _ =>
    cases h
    exact .inl rfl

/-- A gate that keeps no flags and no times leaves the buffer. -/
theorem run_buf (hg : ∀ f e, g.written f e = []) (h : m.run p g a = .ok m') : m'.buf = m.buf := by
  rcases run_wrote h with hbuf | hw
  · exact hbuf
  · rw [hg, writeBefore] at hw
    split_ifs at hw
    simpa using hw.symm

theorem andThen_buf {x : Outcome Parsing} {f : Parsing → Outcome Parsing} {b : Bytes}
    (hx : ∀ m', x = .ok m' → m'.buf = b) (hf : ∀ m m', f m = .ok m' → m'.buf = m.buf)
    (h : x.andThen f = .ok m') : m'.buf = b := by
  rcases x with m1 | m1 | m1 | m1
  · exact (hf m1 m' h).trans (hx m1 rfl)
  all_goals cases h

theorem runAll_buf (hg : ∀ f e, g.written f e = []) (as : List Action) :
    ∀ m', m.runAll p g as = .ok m' → m'.buf = m.buf := by
  induction as using List.reverseRecOn with
  | nil =>
    rintro m' h
    cases h
    rfl
  | append_singleton as a ih =>
    intro m' h
    unfold Parsing.runAll at h ih
    rw [List.foldl_append] at h
    exact andThen_buf ih (fun _ _ => run_buf hg) h

theorem run_length (h : m.run p g a = .ok m') : m'.buf.length = m.buf.length := by
  rcases run_wrote h with hbuf | hw
  · rw [hbuf]
  · exact (writeBefore_some hw).2.1

theorem runAll_length (as : List Action) : ∀ {m' : Parsing}, m.runAll p g as = .ok m' →
    m'.buf.length = m.buf.length := by
  induction as using List.reverseRecOn with
  | nil =>
    rintro m' h
    cases h
    rfl
  | append_singleton as a ih =>
    intro m' h
    rw [Parsing.runAll, List.foldl_append] at h
    change (m.runAll p g as).andThen (fun m => m.run p g a) = .ok m' at h
    rcases hx : m.runAll p g as with m1 | m1 | m1 | m1 <;> rw [hx] at h
    · exact (run_length h).trans (ih hx)
    all_goals cases h

theorem exec_buf (hg : ∀ f e, g.written f e = []) : ∀ (n p : ℕ) {m m' : Parsing},
    m.exec g n p = .ok m' → m'.buf = m.buf
  | 0, p, m, m', h => by
    cases h
    rfl
  | n + 1, p, m, m', h => by
    refine andThen_buf (fun m1 h1 => ?_) (fun _ _ => exec_buf hg n (p + 1)) h
    unfold Parsing.feed at h1
    rcases hb : m.buf[p]? with _ | b <;> simp only [hb] at h1
    · cases h1
    · split_ifs at h1
      have hbuf := runAll_buf hg _ m1 h1
      exact hbuf

/-- The bytes in two parts. -/
theorem exec_add : ∀ (n k p : ℕ) (m : Parsing),
    m.exec g (n + k) p = (m.exec g n p).andThen fun m => m.exec g k (p + n)
  | 0, k, p, m => by
    rw [Nat.zero_add]
    rfl
  | n + 1, k, p, m => by
    rw [Nat.add_right_comm]
    show (m.feed p g).andThen (fun m => m.exec g (n + k) (p + 1)) =
      ((m.feed p g).andThen fun m => m.exec g n (p + 1)).andThen fun m => m.exec g k (p + (n + 1))
    rcases m.feed p g with m1 | m1 | m1 | m1
    · show m1.exec g (n + k) (p + 1) =
        (m1.exec g n (p + 1)).andThen fun m => m.exec g k (p + (n + 1))
      rw [exec_add n k (p + 1) m1, Nat.add_right_comm, Nat.add_assoc]
    all_goals rfl

end Kumofs.Gate.Memtext
