import Kumofs.Lib.Endian
import Kumofs.Lib.Newest
import Kumofs.Storage

/-!
# What the storage holds for a key

The value of a key after each operation on the storage.
-/

namespace Kumofs

variable {key key' val : Bytes} {proc : Bytes → Bool}

/-! ## Bytes -/

theorem ofBe_eq (l : Bytes) : ofBe l = Endian.value l.reverse := (Endian.value_reverse l).symm

theorem toBe64_eq (x : UInt64) : toBe64 x = (Endian.bytes 8 x.toNat).reverse := by
  rw [Endian.bytes_eq_map]
  simp [toBe64, List.range_succ]

theorem ofBe_toBe64 (x : UInt64) : ofBe (toBe64 x) = x.toNat := by
  rw [ofBe_eq, toBe64_eq, List.reverse_reverse, Endian.value_bytes_toNat]

namespace Storage

theorem clocktimeOf_append (ct : ClockTime) (rest : Bytes) :
    clocktimeOf (clocktimeTo ct ++ rest) = ct := by
  have hlen : (toBe64 ct.m).length = valueClocktimeSize := rfl
  unfold clocktimeOf clocktimeTo
  rw [← hlen, List.take_left, ofBe_toBe64, UInt64.ofNat_toNat]

theorem clocktimeOf_clocktimeTo (ct : ClockTime) : clocktimeOf (clocktimeTo ct) = ct := by
  simpa using clocktimeOf_append ct []

end Storage

theorem DBValue.clocktime_setClocktime (v : DBValue) (ct : ClockTime) :
    (v.setClocktime ct).clocktime = ct := Storage.clocktimeOf_append ct _

/-! ## The table -/

namespace Db

variable {db : Db}

theorem lookup_update : (db.update key val proc).1.lookup key =
    if (db.lookup key).all proc then some val else db.lookup key := by
  unfold update
  cases h : db.lookup key with
  | none => simp
  | some old =>
    simp only [Option.all_some]
    split_ifs
    · exact AList.lookup_insert _
    · exact h

theorem update_snd : (db.update key val proc).2 = (db.lookup key).all proc := by
  unfold update
  cases db.lookup key with
  | none => rfl
  | some old =>
    simp only [Option.all_some]
    split_ifs with hp
    · exact hp.symm
    · exact (Bool.eq_false_of_not_eq_true hp).symm

theorem update_fst_of_false (h : (db.update key val proc).2 = false) :
    (db.update key val proc).1 = db := by
  unfold update at h ⊢
  cases hl : db.lookup key with
  | none => simp [hl] at h
  | some old =>
    simp only [hl] at h ⊢
    split_ifs at h ⊢
    rfl

theorem lookup_update_ne (h : key ≠ key') :
    (db.update key' val proc).1.lookup key = db.lookup key := by
  unfold update
  split
  · exact AList.lookup_insert_ne h
  · split_ifs
    · exact AList.lookup_insert_ne h
    · rfl

variable {val' : Bytes}

/-- What is there after an insertion was put by it or was there before. -/
theorem lookup_of_insert (h : (db.insert key val).lookup key' = some val') :
    key' = key ∧ val' = val ∨ db.lookup key' = some val' := by
  by_cases hk : key' = key
  · subst hk
    rw [AList.lookup_insert, Option.some.injEq] at h
    exact .inl ⟨rfl, h.symm⟩
  · rw [AList.lookup_insert_ne hk] at h
    exact .inr h

theorem lookup_of_update (h : (db.update key val proc).1.lookup key' = some val') :
    key' = key ∧ val' = val ∨ db.lookup key' = some val' := by
  unfold update at h
  split at h
  · exact lookup_of_insert h
  · split_ifs at h
    · exact lookup_of_insert h
    · exact .inr h

theorem lookup_of_erase (h : (db.erase key).lookup key' = some val') :
    db.lookup key' = some val' := by
  by_cases hk : key' = key
  · subst hk
    rw [AList.lookup_erase] at h
    cases h
  · rwa [AList.lookup_erase_ne hk] at h

theorem lookup_of_del (h : (db.del key proc).lookup key' = some val') :
    db.lookup key' = some val' := by
  unfold del at h
  split at h
  · exact h
  · split_ifs at h
    · exact lookup_of_erase h
    · exact h

theorem lookup_foldl_erase {ε : Type*} (f : ε → Bytes) : ∀ (es : List ε) (db : Db),
    (es.foldl (fun db e => db.erase (f e)) db).lookup key =
      if key ∈ es.map f then none else db.lookup key
  | [], db => by simp
  | e :: es, db => by
    rw [List.foldl_cons, lookup_foldl_erase f es]
    by_cases he : key = f e
    · subst he
      simp
    · simp only [List.map_cons, List.mem_cons, he, false_or, AList.lookup_erase_ne he]

end Db

/-! ## Scans -/

namespace Storage

variable {s : Storage} {now : ClockTime}

theorem mem_live : (key, val) ∈ s.live ↔
    s.db.lookup key = some val ∧ valueMetaSize ≤ val.length := by
  unfold live
  simp only [List.mem_map, List.mem_filter, Prod.mk.injEq, decide_eq_true_eq]
  constructor
  · rintro ⟨⟨k, v⟩, ⟨he, hv⟩, rfl, rfl⟩
    exact ⟨AList.mem_lookup_iff.2 he, hv⟩
  · rintro ⟨h, hv⟩
    exact ⟨⟨key, val⟩, ⟨AList.mem_lookup_iff.1 h, hv⟩, rfl, rfl⟩

/-- A scan takes nothing but garbage. -/
theorem lookup_sweep : (s.sweep now).db.lookup key =
    (s.db.lookup key).filter (!isGarbage (s.clocktimeLimit now) ·) := by
  unfold sweep
  simp only []
  rw [Db.lookup_foldl_erase (fun e : Sigma fun _ : Bytes => Bytes => e.1)]
  have hmem : key ∈ (s.db.entries.filter fun e =>
      isGarbage (s.clocktimeLimit now) e.2).map (·.1) ↔
      ∃ v, s.db.lookup key = some v ∧ isGarbage (s.clocktimeLimit now) v = true := by
    simp only [List.mem_map, List.mem_filter]
    constructor
    · rintro ⟨⟨k, v⟩, ⟨he, hg⟩, rfl⟩
      exact ⟨v, AList.mem_lookup_iff.2 he, hg⟩
    · rintro ⟨v, hv, hg⟩
      exact ⟨⟨key, v⟩, ⟨AList.mem_lookup_iff.1 hv, hg⟩, rfl⟩
  cases h : s.db.lookup key with
  | none =>
    rw [if_neg fun hk => by simpa [h] using hmem.1 hk]
    rfl
  | some v =>
    by_cases hg : isGarbage (s.clocktimeLimit now) v = true
    · rw [if_pos (hmem.2 ⟨v, h, hg⟩)]
      simp [Option.filter, hg]
    · rw [if_neg fun hk => by
        obtain ⟨w, hw, hgw⟩ := hmem.1 hk
        rw [h] at hw
        exact hg (Option.some.inj hw ▸ hgw)]
      simp [Option.filter, hg]

theorem not_isGarbage_of_live {limit : ClockTime} (h : valueMetaSize ≤ val.length) :
    isGarbage limit val = false := by
  unfold isGarbage
  rw [decide_eq_false (Nat.not_lt.2 h), Bool.false_and, Bool.false_and]

theorem lookup_sweep_live (h : s.db.lookup key = some val) (hv : valueMetaSize ≤ val.length) :
    (s.sweep now).db.lookup key = some val := by
  rw [lookup_sweep, h]
  simp [Option.filter, not_isGarbage_of_live hv]

end Storage

/-! ## The entry of a key as a register -/

namespace Storage

open Newest

variable {s : Storage} {key val : Bytes} {ct : ClockTime}

/-- A raw value with a clocktime. -/
def HasClocktime (o : Option Bytes) : Prop := ∀ e, o = some e → valueClocktimeSize ≤ e.length

theorem all_updateproc {o : Option Bytes} (ho : HasClocktime o) :
    o.all (updateproc ct) = o.all (clocktimeOf · < ct) := by
  cases o with
  | none => rfl
  | some e =>
    have he := ho e rfl
    simp only [Option.all_some, updateproc]
    rw [if_neg (by omega)]

theorem lookup_update_put (ho : HasClocktime (s.db.lookup key)) :
    (s.update key val).1.db.lookup key = put clocktimeOf (s.db.lookup key) val := by
  unfold update put
  simp only [Db.lookup_update, all_updateproc ho]

/-- Taking old tombstones from the queue does not touch the entry of `key`. -/
def Keeps (s : Storage) (key rawKey : Bytes) (ct : ClockTime) : Prop :=
  (s.remove rawKey ct).1.db.lookup key =
    (s.db.update rawKey (clocktimeTo ct) (updateproc ct)).1.lookup key

instance (s : Storage) (key rawKey : Bytes) (ct : ClockTime) :
    Decidable (s.Keeps key rawKey ct) := inferInstanceAs (Decidable (_ = _))

theorem lookup_remove_put (hk : s.Keeps key key ct) (ho : HasClocktime (s.db.lookup key)) :
    (s.remove key ct).1.db.lookup key =
      put clocktimeOf (s.db.lookup key) (clocktimeTo ct) := by
  rw [hk, Db.lookup_update, all_updateproc ho]
  unfold put
  rw [clocktimeOf_clocktimeTo]

theorem remove_snd : (s.remove key ct).2 = (s.db.lookup key).all (updateproc ct) := by
  unfold remove
  simp only []
  split_ifs with h
  · rw [← Db.update_snd, h]
  · rw [← Db.update_snd]
    exact (Bool.eq_false_of_not_eq_true h).symm

/-- A delete that is done takes tombstones from the queue. -/
theorem remove_fst (hr : (s.remove key ct).2 = true) :
    (s.remove key ct).1 = drain s ct (s.db.update key (clocktimeTo ct) (updateproc ct)).1
      (s.garbage ++ [(ct, key)]) := by
  have hup : (s.db.update key (clocktimeTo ct) (updateproc ct)).2 = true := by
    rw [Db.update_snd, ← remove_snd, hr]
  unfold remove
  simp only [hup, if_true]

theorem lookup_remove_false (hr : (s.remove key ct).2 = false) :
    (s.remove key ct).1.db.lookup key = s.db.lookup key := by
  rw [remove_snd] at hr
  unfold remove
  simp only []
  rw [Db.update_snd, hr, if_neg (by simp), Db.lookup_update, hr, if_neg (by simp)]

theorem lookup_cas {compare : ClockTime} : (s.cas key val compare).1.db.lookup key =
    if (s.cas key val compare).2 then some val else s.db.lookup key := by
  unfold cas
  simp only [Db.lookup_update, Db.update_snd]

theorem lookup_set : (s.set key val).db.lookup key = some val := AList.lookup_insert _

/-- A value that is newer than a tombstone of the queue is not taken with it. -/
theorem lookup_del_kept {db : Db} {g : ClockTime × Bytes} (hl : db.lookup key = some val)
    (hlen : valueClocktimeSize ≤ val.length) (hkeep : g.2 = key → ¬ clocktimeOf val ≤ g.1) :
    (db.del g.2 (updateprocEq g.1)).lookup key = some val := by
  unfold Db.del
  split
  · exact hl
  next old hold =>
    by_cases hk : key = g.2
    · rw [← hk, hl, Option.some.injEq] at hold
      subst hold
      have hproc : updateprocEq g.1 val = false := by
        unfold updateprocEq
        rw [if_neg (by omega), decide_eq_false (hkeep hk.symm)]
      rw [hproc]
      exact hl
    · split_ifs
      · rw [AList.lookup_erase_ne hk]
        exact hl
      · exact hl

/-! ## Where a value comes from -/

theorem lookup_of_drain {u : ClockTime} : ∀ {gs : List (ClockTime × Bytes)} {db : Db},
    (drain s u db gs).db.lookup key = some val → db.lookup key = some val
  | [], _, h => h
  | g :: gs, db, h => by
    unfold drain at h
    split_ifs at h
    · exact Db.lookup_of_del (lookup_of_drain h)
    · exact lookup_of_drain h
    · exact Db.lookup_of_del (lookup_of_drain h)
    · exact h

/-- The queue adds nothing to the update of a delete. -/
theorem lookup_update_of_remove {key' : Bytes}
    (h : (s.remove key ct).1.db.lookup key' = some val) :
    (s.db.update key (clocktimeTo ct) (updateproc ct)).1.lookup key' = some val := by
  unfold remove at h
  simp only [] at h
  split_ifs at h
  · exact lookup_of_drain h
  · exact h

theorem lookup_of_remove {key' : Bytes} (h : (s.remove key ct).1.db.lookup key' = some val) :
    key' = key ∧ val = clocktimeTo ct ∨ s.db.lookup key' = some val :=
  Db.lookup_of_update (lookup_update_of_remove h)

theorem lookup_of_sweep {now : ClockTime} (h : (s.sweep now).db.lookup key = some val) :
    s.db.lookup key = some val := by
  rw [lookup_sweep] at h
  exact (Option.filter_eq_some_iff.1 h).1

/-! ## What holds of every value -/

/-- `P` holds of every value in the table. -/
def AllVals (P : Bytes → Prop) (db : Db) : Prop := ∀ key val, db.lookup key = some val → P val

variable {P Q : Bytes → Prop} {db : Db} {proc : Bytes → Bool}

theorem AllVals.imp (h : AllVals P db) (hPQ : ∀ val, P val → Q val) : AllVals Q db :=
  fun key val hl => hPQ val (h key val hl)

theorem AllVals.insert (h : AllVals P db) (hv : P val) : AllVals P (db.insert key val) := by
  intro key' val' hl
  rcases Db.lookup_of_insert hl with ⟨-, rfl⟩ | hl
  · exact hv
  · exact h key' val' hl

theorem AllVals.erase (h : AllVals P db) : AllVals P (db.erase key) :=
  fun key' val' hl => h key' val' (Db.lookup_of_erase hl)

theorem AllVals.update (h : AllVals P db) (hv : P val) :
    AllVals P (db.update key val proc).1 := by
  intro key' val' hl
  rcases Db.lookup_of_update hl with ⟨-, rfl⟩ | hl
  · exact hv
  · exact h key' val' hl

theorem AllVals.remove (h : AllVals P s.db) (hv : P (clocktimeTo ct)) :
    AllVals P (s.remove key ct).1.db := by
  intro key' val' hl
  rcases lookup_of_remove hl with ⟨-, rfl⟩ | hl
  · exact hv
  · exact h key' val' hl

theorem AllVals.foldl_erase {ε : Type*} {f : ε → Bytes} : ∀ {es : List ε} {db : Db},
    AllVals P db → AllVals P (es.foldl (fun db e => db.erase (f e)) db)
  | [], _, h => h
  | _ :: _, _, h => by
    rw [List.foldl_cons]
    exact AllVals.foldl_erase h.erase

theorem AllVals.sweep {now : ClockTime} (h : AllVals P s.db) : AllVals P (s.sweep now).db :=
  fun key val hl => h key val (lookup_of_sweep hl)

theorem AllVals.of_live (h : AllVals P s.db) (hl : (key, val) ∈ s.live) :
    P val := h key val (mem_live.1 hl).1

end Storage

end Kumofs
