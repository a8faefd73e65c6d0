import Kumofs.Proofs.ClockOrder
import Kumofs.Proofs.Storage
import Kumofs.Sample
import Kumofs.System.Merge

/-!
# What a merge keeps

The destination is a register for each key. A scan shows the values of a source and no tombstone, so
that the register of a key ends with the newest of the values, in whatever order the sources come: a
tombstone that is newer than all of them changes nothing.
-/

namespace Kumofs.Merging

open Newest Storage

variable {m : Merging} {key : DBKey} {srcs : List Db}

/-! ## The register of a key -/

/-- A value is put into the register of its key. -/
theorem lookup_forEachUpdate {kv : Bytes × Bytes} (hm : HasClocktime (m.dst.db.lookup key.raw))
    (hv : valueMetaSize ≤ kv.2.length) : (m.forEachUpdate kv).dst.db.lookup key.raw =
      if kv.1 = key.raw then put clocktimeOf (m.dst.db.lookup key.raw) kv.2
      else m.dst.db.lookup key.raw := by
  have hdst : keyMetaSize ≤ kv.1.length →
      (m.forEachUpdate kv).dst = (m.dst.update kv.1 kv.2).1 := by
    intro hk
    unfold forEachUpdate
    simp only [Nat.not_lt.2 hk, Nat.not_lt.2 hv, if_false]
    split_ifs
    · rfl
    · rfl
  by_cases hk : kv.1 = key.raw
  · rw [if_pos hk, hdst (hk ▸ key.meta_le), hk, lookup_update_put hm]
  · rw [if_neg hk]
    by_cases hlen : keyMetaSize ≤ kv.1.length
    · rw [hdst hlen]
      exact Db.lookup_update_ne fun h => hk h.symm
    · unfold forEachUpdate
      simp only [Nat.not_le.1 hlen, if_true]

theorem hasClocktime_put {o : Option Bytes} {val : Bytes} (ho : HasClocktime o)
    (hv : valueMetaSize ≤ val.length) : HasClocktime (put clocktimeOf o val) := by
  intro e he
  unfold put at he
  split_ifs at he
  · cases he
    exact le_trans (by decide) hv
  · exact ho e he

/-- The values of a key, in the order of the records. -/
def valuesOf (key : DBKey) (kvs : List (Bytes × Bytes)) : List Bytes :=
  (kvs.filter (·.1 = key.raw)).map (·.2)

theorem lookup_foldl : ∀ (kvs : List (Bytes × Bytes)) {m : Merging},
    HasClocktime (m.dst.db.lookup key.raw) → (∀ kv ∈ kvs, valueMetaSize ≤ kv.2.length) →
      (kvs.foldl forEachUpdate m).dst.db.lookup key.raw =
        (valuesOf key kvs).foldl (put clocktimeOf) (m.dst.db.lookup key.raw)
  | [], _, _, _ => rfl
  | kv :: kvs, m, hm, hkvs => by
    have hv := hkvs kv List.mem_cons_self
    have hstep := lookup_forEachUpdate hm hv
    have hm' : HasClocktime ((m.forEachUpdate kv).dst.db.lookup key.raw) := by
      rw [hstep]
      split_ifs
      · exact hasClocktime_put hm hv
      · exact hm
    rw [List.foldl_cons, lookup_foldl kvs hm' fun x hx => hkvs x (List.mem_cons_of_mem _ hx), hstep]
    unfold valuesOf
    by_cases hk : kv.1 = key.raw
    · rw [if_pos hk, List.filter_cons_of_pos (by simpa using hk)]
      rfl
    · rw [if_neg hk, List.filter_cons_of_neg (by simpa using hk)]

/-! ## The merge -/

/-- The records of all sources, as they are shown. -/
def shown (srcs : List Db) : List (Bytes × Bytes) := srcs.flatMap fun db => (openStorage db).live

theorem foldl_forEach (m : Merging) : ∀ srcs : List Db,
    (srcs.map openStorage).foldl forEach m = (shown srcs).foldl forEachUpdate m
  | [] => rfl
  | db :: srcs => by
    have hshown : shown (db :: srcs) = (openStorage db).live ++ shown srcs := List.flatMap_cons
    rw [List.map_cons, List.foldl_cons, foldl_forEach _ srcs, hshown, List.foldl_append]
    rfl

theorem mem_shown {kv : Bytes × Bytes} : kv ∈ shown srcs ↔
    ∃ db ∈ srcs, db.lookup kv.1 = some kv.2 ∧ valueMetaSize ≤ kv.2.length := by
  unfold shown
  rw [List.mem_flatMap]
  exact exists_congr fun db => and_congr_right fun _ => mem_live

/-- The values that are put are those of the sources. -/
theorem mem_valuesOf {val : Bytes} : val ∈ valuesOf key (shown srcs) ↔ val ∈ values srcs key := by
  unfold valuesOf values entries
  simp only [List.mem_map, List.mem_filter, mem_shown, decide_eq_true_eq, Set.mem_ofPred_eq]
  constructor
  · rintro ⟨⟨k, v⟩, ⟨⟨db, hdb, hl, hv⟩, rfl⟩, rfl⟩
    exact ⟨⟨db, hdb, hl⟩, hv⟩
  · rintro ⟨⟨db, hdb, hl⟩, hv⟩
    exact ⟨(key.raw, val), ⟨⟨db, hdb, hl, hv⟩, rfl⟩, rfl⟩

theorem values_perm {srcs' : List Db} (hp : srcs'.Perm srcs) :
    values srcs' key = values srcs key := by
  ext val
  simp only [values, entries, Set.mem_ofPred_eq, hp.mem_iff]

/-- What is read after a merge into an empty database. -/
theorem get_forEachAll (hC : StrictTotal {ct | ∃ val ∈ values srcs key, clocktimeOf val = ct})
    (hinj : ∀ x ∈ values srcs key, ∀ y ∈ values srcs key, clocktimeOf x = clocktimeOf y → x = y) :
    IsNewest clocktimeOf (values srcs key)
      ((forEachAll ∅ srcs).dst.get key.raw) := by
  have hset : (∅ : Set Bytes) ∪ {x | x ∈ valuesOf key (shown srcs)} = values srcs key := by
    ext val
    simp [mem_valuesOf]
  have hnew : IsNewest clocktimeOf (values srcs key)
      ((valuesOf key (shown srcs)).foldl (put clocktimeOf) none) := by
    rw [← hset]
    refine IsNewest.foldl_put hC _ ?_ ?_ ?_
    · rw [hset]
      exact fun x hx => ⟨x, hx, rfl⟩
    · rw [hset]
      exact hinj
    · rfl
  have hlook : (forEachAll ∅ srcs).dst.db.lookup key.raw =
      (valuesOf key (shown srcs)).foldl (put clocktimeOf) none := by
    rw [forEachAll, foldl_forEach]
    refine lookup_foldl _ (fun e he => ?_) fun kv hkv => ?_
    · cases he
    · obtain ⟨-, -, -, hv⟩ := mem_shown.1 hkv
      exact hv
  have hget : (forEachAll ∅ srcs).dst.get key.raw =
      (valuesOf key (shown srcs)).foldl (put clocktimeOf) none := by
    unfold Storage.get
    rw [hlook]
    cases hr : (valuesOf key (shown srcs)).foldl (put clocktimeOf) none with
    | none => rfl
    | some val =>
      rw [hr] at hnew
      exact Option.filter_some_pos (decide_eq_true hnew.1.2)
  rw [hget]
  exact hnew

/-- In whatever order there are at least two sources, a key reads as the newest of the values that
they have for it. -/
theorem main_keeps_newest (h2 : 2 ≤ srcs.length)
    (hC : StrictTotal {ct | ∃ val ∈ values srcs key, clocktimeOf val = ct})
    (hinj : ∀ x ∈ values srcs key, ∀ y ∈ values srcs key, clocktimeOf x = clocktimeOf y → x = y) :
    ∃ o, IsNewest clocktimeOf (values srcs key) o ∧
      ∀ srcs' : List Db, srcs'.Perm srcs → ∃ m, main ∅ srcs' = some m ∧ m.dst.get key.raw = o := by
  refine ⟨_, get_forEachAll hC hinj, fun srcs' hp => ⟨forEachAll ∅ srcs', ?_, ?_⟩⟩
  · unfold main
    rw [if_neg (by rw [hp.length_eq]; omega)]
  · have hv := @values_perm key srcs srcs' hp
    have hnew := @get_forEachAll key srcs' (by rw [hv]; exact hC) (by rw [hv]; exact hinj)
    rw [hv] at hnew
    exact hnew.unique hC (fun x hx => ⟨x, hx, rfl⟩) (get_forEachAll hC hinj)

/-! A value, and what another source has for its key: a newer value or a newer tombstone. -/

section Sample

open Sample

def mergedKey : DBKey := ⟨entryKey, meta_le_entryKey⟩

/-- The value `w`, written at clock 2 of second 1001. -/
def newerVal : Bytes := [0, 0, 3, 233, 0, 0, 0, 2, 0, 0, 119]

def tombstone : Bytes := clocktimeTo (.mk' 2 1001)

def sources (val : Bytes) : List Db :=
  [AList.singleton entryKey entryVal, AList.singleton entryKey val]

theorem lookup_singleton (val : Bytes) :
    (AList.singleton entryKey val : Db).lookup mergedKey.raw = some val :=
  AList.lookup_insert ∅

theorem mem_entries_sources {val x : Bytes} :
    x ∈ entries (sources val) mergedKey ↔ x = entryVal ∨ x = val := by
  simp only [entries, sources, List.mem_cons, List.not_mem_nil, or_false, Set.mem_ofPred_eq,
    exists_eq_or_imp, exists_eq_left, lookup_singleton, Option.some.injEq]
  tauto

/-- The clocktimes of the two are in their order. -/
theorem strictTotal_sources {val : Bytes} (hval : clocktimeOf val = .mk' 2 1001) {S : Set Bytes}
    (hS : ∀ x, x ∈ S ↔ x = entryVal ∨ x = val) :
    StrictTotal {ct | ∃ x ∈ S, clocktimeOf x = ct} := by
  have hset : {ct | ∃ x ∈ S, clocktimeOf x = ct} =
      {ct | ct = ClockTime.mk' 1 1000 ∨ ct = .mk' 2 1001} := by
    ext ct
    simp only [hS, Set.mem_ofPred_eq, exists_eq_or_imp, exists_eq_left, hval]
    rw [show clocktimeOf entryVal = .mk' 1 1000 by decide]
    tauto
  rw [hset]
  exact strictTotal_pair (ClockTime.lt_irrefl _) (ClockTime.lt_irrefl _) (by decide) (by decide)

theorem distinct_sources {val : Bytes} (hval : clocktimeOf val = .mk' 2 1001) {S : Set Bytes}
    (hS : ∀ x, x ∈ S ↔ x = entryVal ∨ x = val) :
    ∀ x ∈ S, ∀ y ∈ S, clocktimeOf x = clocktimeOf y → x = y := by
  have hne : clocktimeOf entryVal ≠ clocktimeOf val := by
    rw [hval]
    decide
  intro x hx y hy he
  rcases (hS x).1 hx with rfl | rfl <;> rcases (hS y).1 hy with rfl | rfl
  · rfl
  · exact absurd he hne
  · exact absurd he.symm hne
  · rfl

theorem main_keeps_newest_newer : ∃ o,
    IsNewest clocktimeOf (values (sources newerVal) mergedKey) o ∧
    ∀ srcs' : List Db, srcs'.Perm (sources newerVal) →
      ∃ m, main ∅ srcs' = some m ∧ m.dst.get mergedKey.raw = o := by
  have hval : clocktimeOf newerVal = .mk' 2 1001 := by decide
  have hS : ∀ x, x ∈ values (sources newerVal) mergedKey ↔ x = entryVal ∨ x = newerVal := by
    intro x
    simp only [values, Set.mem_ofPred_eq, mem_entries_sources]
    constructor
    · exact fun h => h.1
    · rintro (rfl | rfl)
      · exact ⟨.inl rfl, by decide⟩
      · exact ⟨.inr rfl, by decide⟩
  exact main_keeps_newest (le_refl 2) (strictTotal_sources hval hS) (distinct_sources hval hS)

theorem not_keeps_newest : ¬ ∀ (srcs : List Db) (key : DBKey), 2 ≤ srcs.length →
    StrictTotal {ct | ∃ val ∈ entries srcs key, clocktimeOf val = ct} →
    (∀ x ∈ entries srcs key, ∀ y ∈ entries srcs key, clocktimeOf x = clocktimeOf y → x = y) →
    ∃ o, IsNewest clocktimeOf (entries srcs key) o ∧
      ∃ m, main ∅ srcs = some m ∧ m.dst.get key.raw = o.filter (valueMetaSize ≤ ·.length) := by
  intro hall
  have hval : clocktimeOf tombstone = .mk' 2 1001 := clocktimeOf_clocktimeTo _
  have hC := strictTotal_sources hval fun x => @mem_entries_sources tombstone x
  obtain ⟨o, ho, m, hm, hget⟩ := hall (sources tombstone) mergedKey (le_refl 2) hC
    (distinct_sources hval fun x => mem_entries_sources)
  have hnewest : IsNewest clocktimeOf (entries (sources tombstone) mergedKey) (some tombstone) := by
    refine ⟨mem_entries_sources.2 (.inr rfl), fun x hx => ?_⟩
    rcases mem_entries_sources.1 hx with rfl | rfl
    · exact .inr (by decide)
    · exact .inl rfl
  have ho' : o = some tombstone := ho.unique hC (fun x hx => ⟨x, hx, rfl⟩) hnewest
  have hread : ((main ∅ (sources tombstone)).bind fun m => m.dst.get mergedKey.raw) =
      some entryVal := by
    decide +kernel
  rw [hm, Option.bind_some, hget, ho'] at hread
  exact absurd hread (by decide)

end Sample

end Kumofs.Merging
