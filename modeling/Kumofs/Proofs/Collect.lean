import Kumofs.Proofs.Converge
import Kumofs.System.Collect

/-!
# What garbage collection deletes

The queue deletes a record only if it is not newer than the tombstone in the queue. A scan compares
with its limit instead, so that what was written since it read the tombstone is deleted when it is
older than the limit, even if it is newer than the tombstone.
-/

namespace Kumofs

open Machine

namespace Storage

variable {s : Storage} {key : Bytes} {proc : Bytes → Bool} {u ct : ClockTime} {d : Deletion}

theorem mem_deleted (h : d ∈ s.deleted key proc ct) :
    s.db.lookup key = some d.record ∧ proc d.record = true ∧ d.tombstone = ct := by
  obtain ⟨v, hv, rfl⟩ := List.mem_map.1 h
  obtain ⟨hl, hp⟩ := Option.filter_eq_some_iff.1 (Option.mem_toList.1 hv)
  exact ⟨hl, hp, rfl⟩

/-- What one round does: the front of the queue goes, and with it at most a record that is not
newer. -/
theorem drainOne_cases {r : Storage × List Deletion} (h : s.drainOne u = some r) :
    ∃ g gs, s.garbage = g :: gs ∧
      (r = ({ s with garbage := gs }, []) ∨
        r = ({ s with db := s.db.del g.2 (updateprocEq g.1), garbage := gs },
          s.deleted g.2 (updateprocEq g.1) g.1)) := by
  unfold drainOne at h
  split at h
  · cases h
  next g gs hg =>
    refine ⟨g, gs, hg, ?_⟩
    simp only [] at h
    split_ifs at h
    · exact .inr (Option.some.inj h).symm
    · exact .inl (Option.some.inj h).symm
    · exact .inr (Option.some.inj h).symm

theorem drain_with (db' : Db) (garbage' : List (ClockTime × Bytes)) :
    ∀ (gs : List (ClockTime × Bytes)) (db : Db),
      drain { s with db := db', garbage := garbage' } u db gs = drain s u db gs
  | [], _ => rfl
  | g :: gs, db => by
    unfold drain
    simp only [drain_with db' garbage' gs]

/-- The rounds are those of `remove`. -/
theorem drain_eq_drainOne (s : Storage) (u : ClockTime) : drain s u s.db s.garbage =
    match s.drainOne u with
    | none => s
    | some r => drain r.1 u r.1.db r.1.garbage := by
  unfold drainOne
  cases hg : s.garbage with
  | nil =>
    cases s
    subst hg
    rfl
  | cons g gs =>
    rw [drain]
    simp only []
    split_ifs
    · exact (drain_with ..).symm
    · exact (drain_with s.db gs gs s.db).symm
    · exact (drain_with ..).symm
    · cases s
      subst hg
      rfl

end Storage

namespace Collecting

open Storage

variable {s s' : Collecting} {act : Act}

/-- With the lock held, the rounds up to the end of the loop are those of `remove`. -/
theorem exec_drain {u : ClockTime} : ∀ (n : ℕ) (s : Collecting), s.storage.garbage.length = n →
    s.draining = some u → ∃ k s', exec step s (List.replicate k .drain) = some s' ∧
      s'.storage = drain s.storage u s.storage.db s.storage.garbage
  | n, s, hn, hu => by
    rw [drain_eq_drainOne]
    cases hone : s.storage.drainOne u with
    | none => exact ⟨1, { s with draining := none }, by simp [exec, step, hu, hone], rfl⟩
    | some r =>
      have hlen : r.1.garbage.length < n := by
        obtain ⟨g, gs, hg, rfl | rfl⟩ := drainOne_cases hone <;> simp [← hn, hg]
      obtain ⟨k, s', hk, hs'⟩ := exec_drain r.1.garbage.length
        { s with storage := r.1, deletions := s.deletions ++ r.2 } rfl hu
      refine ⟨k + 1, s', ?_, hs'⟩
      rw [List.replicate_succ, exec]
      simp only [step, hu, hone, Option.map_some, Option.bind_some]
      rw [hu] at hk
      exact hk
  termination_by n => n

/-- A `remove` that no other call comes between is `Storage.remove`. -/
theorem exec_remove (x : Storage) (key : DBKey) (ct : ClockTime) : ∃ acts s',
    exec step (Collecting.init x) (.remove key ct :: acts) = some s' ∧
      s'.storage = (x.remove key.raw ct).1 := by
  have hraw : clocktimeOf (clocktimeTo ct) = ct := clocktimeOf_clocktimeTo ct
  unfold Storage.remove
  simp only []
  split_ifs with hr
  · obtain ⟨k, s', hk, hs'⟩ := exec_drain (u := ct) _
      { Collecting.init x with
        storage :=
          { x with
            db := (x.db.update key.raw (clocktimeTo ct) (updateproc ct)).1
            garbage := x.garbage ++ [(ct, key.raw)] }
        draining := some ct } rfl rfl
    refine ⟨.push 0 :: List.replicate k .drain, s', ?_, ?_⟩
    · simp only [exec, step, Collecting.init, Storage.update, hraw, hr, if_true, List.nil_append,
        Option.bind_some, Option.isSome_none, Bool.false_eq_true, if_false,
        List.getElem?_cons_zero, Option.map_some, List.eraseIdx_cons_zero]
      exact hk
    · rw [hs']
      exact drain_with ..
  · refine ⟨[], _, rfl, ?_⟩
    simp only [Storage.update, hraw]
    rfl

/-- No live value is written, while a scan is about to delete the record of its key, that is newer
than the tombstone the scan has seen and older than its limit. -/
def Guard (s : Collecting) : Act → Prop
  | .set key val | .update key val | .cas key val _ => ∀ d ∈ s.scan, d.key = key.raw →
    ¬ (clocktimeOf d.seen < val.clocktime ∧ val.clocktime < d.limit)
  | _ => True

instance (s : Collecting) : ∀ act, Decidable (s.Guard act)
  | .set .. | .update .. | .cas .. => inferInstanceAs (Decidable (∀ _ ∈ _, _ → _))
  | .remove .. | .push .. | .drain | .read .. | .collect => inferInstanceAs (Decidable True)

/-- The value is none that a scan would collect for an older one. -/
def Harmless (d : Decision) (v : Bytes) : Prop :=
  valueMetaSize ≤ v.length → ¬ (clocktimeOf d.seen < clocktimeOf v ∧ clocktimeOf v < d.limit)

structure Inv (s : Collecting) : Prop where
  scan : ∀ d ∈ s.scan, ∀ v, s.storage.db.lookup d.key = some v → Harmless d v
  spares : s.SparesNewer

theorem harmless_tombstone (d : Decision) (ct : ClockTime) : Harmless d (clocktimeTo ct) :=
  fun h => absurd h (by rw [length_clocktimeTo]; decide)

theorem Inv.of_lookup (h : Inv s) {x : Storage} {key val : Bytes}
    (hl : ∀ k v, x.db.lookup k = some v → k = key ∧ v = val ∨ s.storage.db.lookup k = some v)
    (hv : ∀ d ∈ s.scan, d.key = key → Harmless d val) :
    ∀ d ∈ s.scan, ∀ v, x.db.lookup d.key = some v → Harmless d v := by
  intro d hd v hx
  rcases hl _ _ hx with ⟨hk, rfl⟩ | hx
  · exact hv d hd hk
  · exact h.scan d hd v hx

theorem Inv.write (h : Inv s) {key : DBKey} {val : DBValue} {x : Storage}
    (hg : ∀ d ∈ s.scan, d.key = key.raw →
      ¬ (clocktimeOf d.seen < val.clocktime ∧ val.clocktime < d.limit))
    (hl : ∀ k v, x.db.lookup k = some v →
      k = key.raw ∧ v = val.raw ∨ s.storage.db.lookup k = some v) :
    Inv { s with storage := x } :=
  ⟨h.of_lookup hl fun d hd hk _ => hg d hd hk, h.spares⟩

/-- The queue keeps what is newer than its tombstone. -/
theorem Inv.step_drain (h : Inv s) (hs : s.step .drain = some s') : Inv s' := by
  obtain ⟨u, -, rfl⟩ := Option.map_eq_some_iff.1 hs
  split
  · exact ⟨h.scan, h.spares⟩
  next r hr =>
    obtain ⟨g, gs, -, rfl | rfl⟩ := drainOne_cases hr
    · exact ⟨h.scan, List.forall_mem_append.2 ⟨h.spares, List.forall_mem_nil _⟩⟩
    · refine ⟨fun d hd v hl => h.scan d hd v (Db.lookup_of_del hl),
        List.forall_mem_append.2 ⟨h.spares, fun d hd => ?_⟩⟩
      obtain ⟨-, hproc, htomb⟩ := mem_deleted hd
      rintro ⟨hlen, hnew⟩
      unfold updateprocEq at hproc
      rw [if_neg (Nat.not_lt.2 (le_trans (by decide) hlen)), decide_eq_true_eq] at hproc
      rw [htomb] at hnew
      exact hproc hnew

/-- A scan keeps what is not older than its limit. -/
theorem Inv.step_collect (h : Inv s) (hs : s.step .collect = some s') : Inv s' := by
  obtain ⟨c, hc, rfl⟩ := Option.map_eq_some_iff.1 hs
  refine ⟨fun d hd => absurd hd (Option.not_mem_none d),
    List.forall_mem_append.2 ⟨h.spares, fun d hd => ?_⟩⟩
  obtain ⟨hl, hproc, htomb⟩ := mem_deleted hd
  rintro ⟨hlen, hnew⟩
  unfold updateproc at hproc
  rw [if_neg (Nat.not_lt.2 (le_trans (by decide) hlen)), decide_eq_true_eq] at hproc
  rw [htomb] at hnew
  exact h.scan c hc d.record hl hlen ⟨hnew, hproc⟩

/-- What a scan decides to delete is no live value. -/
theorem Inv.step_read (h : Inv s) {key : Bytes} {now : ClockTime}
    (hs : s.step (.read key now) = some s') : Inv s' := by
  simp only [step] at hs
  split_ifs at hs
  obtain ⟨val, hl, rfl⟩ := Option.map_eq_some_iff.1 hs
  refine ⟨fun d hd v hv hlen => ?_, h.spares⟩
  simp only [Option.mem_def] at hd
  split_ifs at hd with hgarbage
  cases hd
  rw [hl, Option.some.injEq] at hv
  rw [hv, not_isGarbage_of_live hlen] at hgarbage
  exact Bool.noConfusion hgarbage

theorem Inv.of_step (h : Inv s) (hg : s.Guard act) (hs : s.step act = some s') : Inv s' := by
  cases act with
  | set key val =>
    cases hs
    exact h.write hg fun k v => Db.lookup_of_insert
  | update key val =>
    cases hs
    exact h.write hg fun k v => Db.lookup_of_update
  | cas key val compare =>
    cases hs
    exact h.write hg fun k v => Db.lookup_of_update
  | remove key ct =>
    cases hs
    exact ⟨h.of_lookup (fun k v => Db.lookup_of_update) fun d _ _ => harmless_tombstone d ct,
      h.spares⟩
  | push i =>
    simp only [step] at hs
    split_ifs at hs
    obtain ⟨g, -, rfl⟩ := Option.map_eq_some_iff.1 hs
    exact ⟨h.scan, h.spares⟩
  | drain => exact h.step_drain hs
  | read key now => exact h.step_read hs
  | collect => exact h.step_collect hs

/-- In runs in which nothing is written to a record that a scan is about to delete with a clocktime
between the tombstone's and the limit, what is collected is no live value newer than the
tombstone. -/
theorem sparesNewer_of_run {x : Storage} {acts : List Act}
    (h : Run step Guard (Collecting.init x) acts s) : s.SparesNewer := by
  have hinit : Inv (Collecting.init x) :=
    ⟨fun d hd => absurd hd (Option.not_mem_none d), fun d hd => absurd hd List.not_mem_nil⟩
  exact (h.inv (fun _ _ _ hI hg hs => hI.of_step hg hs) hinit).spares

/-! A scan finds the tombstone of a key, and a value is moved in before it is deleted. -/

section Sample

open Sample

/-- The key is deleted in second 1000, the scan is in second 2000, and `ct` is when the value was
written. -/
def movedRun (ct : ClockTime) : List Act :=
  [.remove sampleKey (.mk' 1 1000), .push 0, .drain, .read sampleKey.raw (.mk' 9 2000),
    .update sampleKey (sampleValue.setClocktime ct), .collect]

theorem movedRun_sparesNewer : ∃ s : Collecting,
    Run step Guard (Collecting.init sampleStorage) (movedRun (.mk' 2 1950)) s ∧
      s.storage.get sampleKey.raw ≠ none ∧ s.SparesNewer := by
  have hrun : ((execIf step Guard (Collecting.init sampleStorage) (movedRun (.mk' 2 1950))).any
      fun s => decide (s.storage.get sampleKey.raw ≠ none)) = true := by
    decide +kernel
  obtain ⟨s, hs, hl⟩ := (Option.any_eq_true _ _).1 hrun
  have hr := execIf_run hs
  exact ⟨s, hr, of_decide_eq_true hl, sparesNewer_of_run hr⟩

/-- A value of second 1500 is newer than the tombstone and older than the limit. -/
theorem movedRun_not_sparesNewer : ∃ s : Collecting,
    Run step Free (Collecting.init sampleStorage) (movedRun (.mk' 2 1500)) s ∧
      ¬ s.SparesNewer := by
  have hrun : ((exec step (Collecting.init sampleStorage) (movedRun (.mk' 2 1500))).any fun s =>
      s.deletions.any fun d => decide
        (valueMetaSize ≤ d.record.length ∧ d.tombstone < clocktimeOf d.record)) = true := by
    decide +kernel
  obtain ⟨s, hs, hany⟩ := (Option.any_eq_true _ _).1 hrun
  obtain ⟨d, hd, hnew⟩ := List.any_eq_true.1 hany
  exact ⟨s, exec_run hs, fun h => h d hd (of_decide_eq_true hnew)⟩

end Sample

end Collecting

end Kumofs
