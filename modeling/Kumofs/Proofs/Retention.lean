import Kumofs.Proofs.Converge

/-!
# How long a tombstone is kept

A tombstone is collected when it is older than the limit, by the comparison of clocktimes. That
has a margin, so that a tombstone may go up to four seconds early in a scan; a delete compares
twice, the entry of the queue with the limit and the tombstone with the entry of the queue, and
may be eight seconds early.
-/

namespace Kumofs.Storage

open Machine

variable {s : Storage} {u : ClockTime} {lo : ℕ} {key val : Bytes}

/-- The clocktime has a time of `lo` or later, and not after `u`. -/
def Within (lo : ℕ) (u ct : ClockTime) : Prop := lo ≤ ct.time.toNat ∧ ct.time.toNat ≤ u.time.toNat

/-- What the comparisons of a delete at `u` say of the ages, when a tombstone goes. -/
theorem time_of_collected {g ct : ClockTime} {sec : UInt32} (hsec : sec.toNat < 2 ^ 31)
    (hu : u.time.toNat < lo + 2 ^ 31) (hlo : sec.toNat ≤ lo) (hg : Within lo u g)
    (hct : Within lo u ct) (h : g < u.beforeSec sec) (h' : ct ≤ g) :
    ct.time.toNat + sec.toNat ≤ u.time.toNat + 8 := by
  obtain ⟨hg1, hg2⟩ := hg
  obtain ⟨hct1, hct2⟩ := hct
  have hb : (u.beforeSec sec).time.toNat = u.time.toNat - sec.toNat :=
    ClockTime.toNat_time_beforeSec (by omega)
  have hearly := ClockTime.toNat_time_lt_of_lt h (by omega)
  have hold : ct.time.toNat < g.time.toNat + 5 := by
    by_contra hn
    exact h' (ClockTime.lt_of_toNat_time_lt (by omega) (by omega))
  omega

/-- The times of garbage collection that retention needs. -/
structure Limits (lo : ℕ) (s : Storage) : Prop where
  min_le_max : s.garbageMinTime.toNat ≤ s.garbageMaxTime.toNat
  max_lt : s.garbageMaxTime.toNat < 2 ^ 31
  max_le : s.garbageMaxTime.toNat ≤ lo

theorem lookup_drain_kept (hlim : Limits lo s) (hu : u.time.toNat < lo + 2 ^ 31)
    (hlen : valueClocktimeSize ≤ val.length) (hval : Within lo u (clocktimeOf val))
    (hyoung : u.time.toNat + 8 < (clocktimeOf val).time.toNat + s.garbageMinTime.toNat) :
    ∀ {gs : List (ClockTime × Bytes)} {db : Db}, (∀ g ∈ gs, Within lo u g.1) →
      db.lookup key = some val → (drain s u db gs).db.lookup key = some val
  | [], _, _, hl => hl
  | g :: gs, db, hgs, hl => by
    have hg := hgs g List.mem_cons_self
    have hgs' : ∀ g ∈ gs, Within lo u g.1 := fun g hg => hgs g (List.mem_cons_of_mem _ hg)
    have hmin := hlim.min_le_max
    have hmax := hlim.max_lt
    have hle := hlim.max_le
    unfold drain
    split_ifs with _ hmin_lt hmax_lt
    · refine lookup_drain_kept hlim hu hlen hval hyoung hgs' (lookup_del_kept hl hlen fun _ h => ?_)
      have := time_of_collected (by omega) hu (by omega) hg hval hmin_lt h
      omega
    · exact lookup_drain_kept hlim hu hlen hval hyoung hgs' hl
    · refine lookup_drain_kept hlim hu hlen hval hyoung hgs' (lookup_del_kept hl hlen fun _ h => ?_)
      have := time_of_collected hmax hu hle hg hval hmax_lt h
      omega
    · exact hl

/-- The raw value of a deleted key. -/
def IsTombstone (val : Bytes) : Prop := val.length < valueMetaSize

/-- A delete takes no tombstone from the table that is younger than its limit by more than `d`
seconds, and a scan none by more than `e`. The delete's own tombstone is there already. -/
def Retains (d e : ℕ) (s : Storage) : Operation → Prop
  | .remove key u => ∀ k val, IsTombstone val →
    (s.db.update key.raw (clocktimeTo u) (updateproc u)).1.lookup k = some val →
    u.time.toNat + d < (clocktimeOf val).time.toNat + s.garbageMinTime.toNat →
    (s.remove key.raw u).1.db.lookup k = some val
  | .forEach u => ∀ k val, IsTombstone val → s.db.lookup k = some val →
    u.time.toNat + e < (clocktimeOf val).time.toNat + s.garbageMaxTime.toNat →
    (s.sweep u).db.lookup k = some val
  | _ => True

/-! ## Sequences of calls -/

namespace Timed

variable {s s' : Timed} {c : Operation}

/-- The times from `lo` on are ones whose differences an `int` holds. -/
def Guard (lo : ℕ) (_ : Timed) (c : Operation) : Prop := c.clocktime.time.toNat < lo + 2 ^ 31

instance (lo : ℕ) (s : Timed) (c : Operation) : Decidable (s.Guard lo c) :=
  inferInstanceAs (Decidable (_ < _))

/-- A value that is a live one, or a tombstone of a time from `lo` to `t`. -/
def Dated (lo : ℕ) (t : UInt32) (val : Bytes) : Prop :=
  valueClocktimeSize ≤ val.length ∧ (IsTombstone val →
    lo ≤ (clocktimeOf val).time.toNat ∧ (clocktimeOf val).time.toNat ≤ t.toNat)

structure Inv (lo : ℕ) (s : Timed) : Prop where
  limits : Limits lo s.storage
  lo_le : lo ≤ s.time.toNat
  db : AllVals (Dated lo s.time) s.storage.db
  garbage : ∀ g ∈ s.storage.garbage, lo ≤ g.1.time.toNat ∧ g.1.time.toNat ≤ s.time.toNat

theorem Dated.mono {t t' : UInt32} (h : Dated lo t val) (ht : t ≤ t') : Dated lo t' val := by
  refine ⟨h.1, fun hv => ⟨(h.2 hv).1, ?_⟩⟩
  have hle := (h.2 hv).2
  rw [UInt32.le_iff_toNat_le] at ht
  omega

theorem dated_value (t : UInt32) (v : DBValue) : Dated lo t v.raw :=
  ⟨le_trans (by decide) v.meta_le, fun h => absurd h (Nat.not_lt.2 v.meta_le)⟩

theorem dated_tombstone {ct : ClockTime} (h : lo ≤ ct.time.toNat) :
    Dated lo ct.time (clocktimeTo ct) := by
  refine ⟨le_of_eq (length_clocktimeTo ct).symm, fun _ => ?_⟩
  rw [clocktimeOf_clocktimeTo]
  exact ⟨h, le_rfl⟩

theorem dated_call {t : UInt32} {x : Storage} (hdb : AllVals (Dated lo t) x.db)
    (hx : c.clocktime.time = t) (hlo : lo ≤ t.toNat) : AllVals (Dated lo t) (x.call c).db := by
  subst hx
  cases c with
  | set key val => exact hdb.insert (dated_value _ val)
  | update key val => exact hdb.update (dated_value _ val)
  | cas key val compare => exact hdb.update (dated_value _ val)
  | remove key ct => exact hdb.remove (dated_tombstone hlo)
  | forEach now => exact hdb.sweep

theorem Inv.step (h : Inv lo s) (hs : s.step c = some s') : Inv lo s' := by
  unfold Timed.step at hs
  split_ifs at hs with ht
  cases hs
  have hle := UInt32.le_iff_toNat_le.1 ht
  have hlo := h.lo_le
  obtain ⟨hmin, hmax⟩ := call_config (s := s.storage) c
  refine ⟨⟨?_, ?_, ?_⟩, le_trans hlo hle, ?_, fun g hg => ?_⟩
  · rw [hmin, hmax]
    exact h.limits.min_le_max
  · rw [hmax]
    exact h.limits.max_lt
  · rw [hmax]
    exact h.limits.max_le
  · exact dated_call (h.db.imp fun _ hv => hv.mono ht) rfl (le_trans hlo hle)
  · simp only []
    rcases mem_garbage_call hg with hg | ⟨key, ct, rfl, rfl⟩
    · have := h.garbage g hg
      omega
    · simp only [Operation.clocktime] at hle ⊢
      omega

theorem Inv.retains (h : Inv lo s) (hg : s.Guard lo c) (ht : s.time ≤ c.clocktime.time) :
    Retains 8 4 s.storage c := by
  have hle := UInt32.le_iff_toNat_le.1 ht
  have hlo := h.lo_le
  have hmin := h.limits.min_le_max
  have hlt := h.limits.max_lt
  have hmax := h.limits.max_le
  cases c with
  | set | update | cas => trivial
  | remove key u =>
    intro k val hv hl hyoung
    have hdb : AllVals (Dated lo u.time)
        (s.storage.db.update key.raw (clocktimeTo u) (updateproc u)).1 :=
      (h.db.imp fun _ hv => hv.mono ht).update (dated_tombstone (le_trans hlo hle))
    have hval := hdb k val hl
    unfold Storage.remove
    simp only []
    split_ifs with hr
    · refine lookup_drain_kept h.limits hg hval.1 (hval.2 hv) hyoung (fun g hm => ?_) hl
      rcases List.mem_append.1 hm with hm | hm
      · have hgt := h.garbage g hm
        exact ⟨hgt.1, le_trans hgt.2 hle⟩
      · rw [List.mem_singleton.1 hm]
        exact ⟨le_trans hlo hle, le_rfl⟩
    · exact hl
  | forEach u =>
    intro k val hv hl hyoung
    obtain ⟨hlen, htime⟩ := h.db k val hl
    have htime := htime hv
    simp only [Guard, Operation.clocktime] at hg hle
    have hb : (s.storage.clocktimeLimit u).time.toNat =
        u.time.toNat - s.storage.garbageMaxTime.toNat :=
      ClockTime.toNat_time_beforeSec (by omega)
    have hnot : ¬ clocktimeOf val < s.storage.clocktimeLimit u := by
      intro hold
      have := ClockTime.toNat_time_lt_of_lt hold (by omega)
      omega
    rw [lookup_sweep, hl]
    refine Option.filter_some_pos ?_
    unfold isGarbage
    rw [decide_eq_false (Nat.not_lt.2 hlen), decide_eq_false hnot]
    simp

/-- In a sequence of calls whose times do not decrease. -/
theorem retains_of_run {s₀ : Timed} {cs : List Operation} (hlim : Limits lo s₀.storage)
    (hlo : lo ≤ s₀.time.toNat) (hdb : AllVals (Dated lo s₀.time) s₀.storage.db)
    (hgarbage : s₀.storage.garbage = []) (h : Run Timed.step (Guard lo) s₀ cs s)
    (hg : s.Guard lo c) (hs : s.step c = some s') : Retains 8 4 s.storage c := by
  have hinv : Inv lo s₀ := ⟨hlim, hlo, hdb, fun g hm => by rw [hgarbage] at hm; cases hm⟩
  refine (h.inv (fun _ _ _ hI _ hs => hI.step hs) hinv).retains hg ?_
  unfold Timed.step at hs
  split_ifs at hs with ht
  exact ht

/-! A delete of a key, and what collects its tombstone. -/

section Sample

/-- Garbage is kept for 100 seconds. -/
def hundred : Timed := ⟨⟨∅, [], 100, 100, 1000⟩, 1000⟩

def deleteRun : List Operation := [.remove sampleKey (.mk' 1 1000)]

theorem deleteRun_retains : ∃ s : Timed, Run Timed.step (Guard 1000) hundred deleteRun s ∧
    s.storage.db.lookup sampleKey.raw ≠ none ∧
    Retains 8 4 s.storage (.remove otherKey (.mk' 2 1090)) := by
  have hrun : ((execIf Timed.step (Guard 1000) hundred deleteRun).any fun s =>
      decide (s.storage.db.lookup sampleKey.raw ≠ none) &&
        (s.step (.remove otherKey (.mk' 2 1090))).isSome) = true := by
    decide +kernel
  obtain ⟨s, hs, hany⟩ := (Option.any_eq_true _ _).1 hrun
  obtain ⟨hl, hnext⟩ := (Bool.and_eq_true _ _).mp hany
  obtain ⟨s', hs'⟩ := Option.isSome_iff_exists.1 hnext
  have hr := execIf_run hs
  have hg : s.Guard 1000 (.remove otherKey (.mk' 2 1090)) :=
    show (ClockTime.mk' 2 1090).time.toNat < 1000 + 2 ^ 31 by decide
  exact ⟨s, hr, of_decide_eq_true hl, retains_of_run ⟨by decide, by decide, by decide⟩ (by decide)
    (fun _ _ hl => by cases hl) rfl hr hg hs'⟩

/-- The tombstone that `deleteRun` leaves. -/
def deleted : Timed := ⟨hundred.storage.call (.remove sampleKey (.mk' 1 1000)), 1000⟩

/-- Of 100 seconds, 96 are enough for the next delete and for a scan. -/
theorem deleteRun_not_retains : Run Timed.step Free hundred deleteRun deleted ∧
    ¬ Retains 0 0 deleted.storage (.remove otherKey (.mk' 2 1096)) ∧
    ¬ Retains 0 0 deleted.storage (.forEach (.mk' 2 1096)) := by
  have htomb : IsTombstone (clocktimeTo (.mk' 1 1000)) :=
    show (clocktimeTo (.mk' 1 1000)).length < valueMetaSize by decide
  refine ⟨.cons trivial rfl (.nil _), fun h => ?_, fun h => ?_⟩
  · have hkept := h sampleKey.raw (clocktimeTo (.mk' 1 1000)) htomb (by decide +kernel) (by decide)
    revert hkept
    decide +kernel
  · have hkept := h sampleKey.raw (clocktimeTo (.mk' 1 1000)) htomb (by decide +kernel) (by decide)
    revert hkept
    decide +kernel

end Sample

end Timed

end Kumofs.Storage
