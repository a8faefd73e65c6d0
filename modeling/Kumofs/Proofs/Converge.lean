import Kumofs.Proofs.ClockOrder
import Kumofs.Proofs.Storage
import Kumofs.Sample
import Kumofs.System.Storage

/-!
# Replicas converge

A replica that gets the same messages in another order or more than once ends with the same values:
each key is a register that keeps the newest, and the deletes among the messages are too young to
collect each other's tombstones.
-/

namespace Kumofs

open Newest

namespace Storage

variable {s : Storage} {u : ClockTime}

/-! ## A queue of young tombstones -/

/-- No tombstone in the queue is old enough for a delete at `u` to collect it. -/
def Young (s : Storage) (u : ClockTime) (gs : List (ClockTime × Bytes)) : Prop :=
  ∀ g ∈ gs, ¬ g.1 < u.beforeSec s.garbageMinTime ∧ ¬ g.1 < u.beforeSec s.garbageMaxTime

theorem drain_db : ∀ {gs : List (ClockTime × Bytes)} {db : Db}, s.Young u gs →
    (drain s u db gs).db = db
  | [], _, _ => rfl
  | g :: gs, db, h => by
    have hg := h g List.mem_cons_self
    have hgs : s.Young u gs := fun g hg => h g (List.mem_cons_of_mem _ hg)
    unfold drain
    rw [if_neg hg.1, if_neg hg.2]
    split_ifs
    · exact drain_db hgs
    · rfl

theorem mem_garbage_drain {x : ClockTime × Bytes} : ∀ {gs : List (ClockTime × Bytes)} {db : Db},
    x ∈ (drain s u db gs).garbage → x ∈ gs
  | [], _, h => h
  | g :: gs, db, h => by
    unfold drain at h
    split_ifs at h
    · exact List.mem_cons_of_mem _ (mem_garbage_drain h)
    · exact List.mem_cons_of_mem _ (mem_garbage_drain h)
    · exact List.mem_cons_of_mem _ (mem_garbage_drain h)
    · exact h

theorem drain_config : ∀ {gs : List (ClockTime × Bytes)} {db : Db},
    (drain s u db gs).garbageMinTime = s.garbageMinTime ∧
      (drain s u db gs).garbageMaxTime = s.garbageMaxTime
  | [], _ => ⟨rfl, rfl⟩
  | g :: gs, db => by
    unfold drain
    split_ifs
    · exact drain_config
    · exact drain_config
    · exact drain_config
    · exact ⟨rfl, rfl⟩

theorem call_config (c : Operation) : (s.call c).garbageMinTime = s.garbageMinTime ∧
    (s.call c).garbageMaxTime = s.garbageMaxTime := by
  cases c with
  | set key val => exact ⟨rfl, rfl⟩
  | update key val => exact ⟨rfl, rfl⟩
  | cas key val compare => exact ⟨rfl, rfl⟩
  | remove key ct =>
    unfold call remove
    simp only []
    split_ifs
    · exact drain_config
    · exact ⟨rfl, rfl⟩
  | forEach now => exact ⟨rfl, rfl⟩

/-- What a call has put into the queue. -/
theorem mem_garbage_call {c : Operation} {x : ClockTime × Bytes} (h : x ∈ (s.call c).garbage) :
    x ∈ s.garbage ∨ ∃ key ct, c = .remove key ct ∧ x = (ct, key.raw) := by
  cases c with
  | set key val => exact .inl h
  | update key val => exact .inl h
  | cas key val compare => exact .inl h
  | remove key ct =>
    unfold call remove at h
    simp only [] at h
    split_ifs at h
    · rcases List.mem_append.1 (mem_garbage_drain h) with h | h
      · exact .inl h
      · exact .inr ⟨key, ct, rfl, List.mem_singleton.1 h⟩
    · exact .inl h
  | forEach now => exact .inl h

theorem remove_db {rawKey : Bytes} (h : s.Young u (s.garbage ++ [(u, rawKey)])) :
    (s.remove rawKey u).1.db = (s.db.update rawKey (clocktimeTo u) (updateproc u)).1 := by
  unfold remove
  simp only []
  split_ifs
  · exact drain_db h
  · rfl

/-! ## Messages -/

namespace Message

variable {m : Message} {key : DBKey} {o : Option Message}

theorem clocktimeOf_raw (m : Message) : clocktimeOf m.raw = m.clocktime := by
  cases m with
  | set key val => rfl
  | delete key ct => exact clocktimeOf_clocktimeTo ct

theorem length_raw (m : Message) : valueClocktimeSize ≤ m.raw.length := by
  cases m with
  | set key val => exact le_trans (by decide) val.meta_le
  | delete key ct => exact le_of_eq (length_clocktimeTo ct).symm

theorem hasClocktime_raw (o : Option Message) : HasClocktime (o.map raw) := by
  intro e he
  obtain ⟨m, -, rfl⟩ := Option.map_eq_some_iff.1 he
  exact m.length_raw

theorem filter_raw (m : Message) :
    (some m.raw).filter (valueMetaSize ≤ ·.length) = m.value := by
  cases m with
  | set key val => exact Option.filter_some_pos (decide_eq_true val.meta_le)
  | delete key ct =>
    refine Option.filter_some_neg ?_
    rw [raw, length_clocktimeTo]
    decide

/-- A register of messages is one of their values. -/
theorem map_put (o : Option Message) (m : Message) :
    put clocktimeOf (o.map raw) m.raw = (put clocktime o m).map raw := by
  cases o with
  | none => rfl
  | some e =>
    unfold put
    simp only [Option.map_some, Option.all_some, clocktimeOf_raw]
    split_ifs
    · rfl
    · rfl

/-- Messages that their clocktimes tell apart and order, with times that are late enough to go back
by `m_garbage_max_time` and closer than `m_garbage_min_time` by the margin. -/
structure Admissible (s : Storage) (ms : List Message) : Prop where
  distinct : ∀ m ∈ ms, ∀ m' ∈ ms, m.clocktime = m'.clocktime → m = m'
  order : StrictTotal {ct | ∃ m ∈ ms, m.clocktime = ct}
  late : ∀ m ∈ ms, s.garbageMaxTime.toNat ≤ m.clocktime.time.toNat
  close : ∀ m ∈ ms, ∀ m' ∈ ms,
    m.clocktime.time.toNat + 5 ≤ m'.clocktime.time.toNat + s.garbageMinTime.toNat

end Message

/-- The limits on the age of garbage are in order, and few enough seconds for a difference of times
that an `int` holds. -/
structure GarbageTimes (s : Storage) : Prop where
  min_le_max : s.garbageMinTime.toNat ≤ s.garbageMaxTime.toNat
  small : s.garbageMinTime.toNat + s.garbageMaxTime.toNat < 2 ^ 31 + 5

open Message

variable {ms : List Message} {m : Message} {key : DBKey} {done : Set Message}

/-- A tombstone of these messages is too young for a delete among them. -/
theorem not_lt_beforeSec (ht : s.GarbageTimes) (ha : Admissible s ms) {m' : Message}
    (hm : m ∈ ms) (hm' : m' ∈ ms) {sec : UInt32} (hmin : s.garbageMinTime.toNat ≤ sec.toNat)
    (hmax : sec.toNat ≤ s.garbageMaxTime.toNat) :
    ¬ m.clocktime < m'.clocktime.beforeSec sec := by
  intro hlt
  have hsmall := ht.small
  have hlate := ha.late m' hm'
  have hc := ha.close m hm m' hm'
  have hc' := ha.close m' hm' m hm
  have hb : (m'.clocktime.beforeSec sec).time.toNat = m'.clocktime.time.toNat - sec.toNat :=
    ClockTime.toNat_time_beforeSec (le_trans hmax hlate)
  have hfew := ClockTime.toNat_time_lt_of_lt hlt (by omega)
  omega

/-- What the storage holds when it got the messages of `done`. -/
structure Got (ms : List Message) (key : DBKey) (done : Set Message) (s : Storage) : Prop where
  newest : ∃ o, IsNewest clocktime {m | m ∈ done ∧ m.key = key} o ∧
    s.db.lookup key.raw = o.map raw
  garbage : ∀ g ∈ s.garbage, ∃ m ∈ ms, m.clocktime = g.1

theorem Got.young (h : Got ms key done s) (ht : s.GarbageTimes) (ha : Admissible s ms)
    (hm : m ∈ ms) (rawKey : Bytes) :
    s.Young m.clocktime (s.garbage ++ [(m.clocktime, rawKey)]) := by
  intro g hg
  obtain ⟨m', hm', hg⟩ : ∃ m' ∈ ms, m'.clocktime = g.1 := by
    rcases List.mem_append.1 hg with hg | hg
    · exact h.garbage g hg
    · exact ⟨m, hm, by rw [List.mem_singleton.1 hg]⟩
  rw [← hg]
  exact ⟨not_lt_beforeSec ht ha hm' hm le_rfl ht.min_le_max,
    not_lt_beforeSec ht ha hm' hm ht.min_le_max le_rfl⟩

/-- A message puts its value into the register of its key. -/
theorem lookup_call (hy : s.Young m.clocktime (s.garbage ++ [(m.clocktime, m.key.raw)])) :
    (s.call m.call).db = (s.db.update m.key.raw m.raw (updateproc m.clocktime)).1 := by
  cases m with
  | set key val => rfl
  | delete key ct => exact remove_db hy

theorem Got.step (h : Got ms key done s) (ht : s.GarbageTimes) (ha : Admissible s ms)
    (hm : m ∈ ms) (hdone : ∀ m ∈ done, m ∈ ms) : Got ms key (insert m done) (s.call m.call) := by
  obtain ⟨o, hnew, hl⟩ := h.newest
  have hdb := lookup_call (h.young ht ha hm m.key.raw)
  refine ⟨?_, fun g hg => ?_⟩
  · by_cases hk : m.key = key
    · refine ⟨put clocktime o m, ?_, ?_⟩
      · have hins : {x | x ∈ insert m done ∧ x.key = key} =
            insert m {x | x ∈ done ∧ x.key = key} := by
          ext x
          simp only [Set.mem_insert_iff, Set.mem_ofPred_eq]
          constructor
          · rintro ⟨rfl | hx, hkx⟩
            · exact .inl rfl
            · exact .inr ⟨hx, hkx⟩
          · rintro (rfl | ⟨hx, hkx⟩)
            · exact ⟨.inl rfl, hk⟩
            · exact ⟨.inr hx, hkx⟩
        rw [hins]
        exact hnew.put ha.order (fun x hx => ⟨x, hdone x hx.1, rfl⟩) ⟨m, hm, rfl⟩
          fun x hx => ha.distinct x (hdone x hx.1) m hm
      · rw [hdb, ← map_put, ← hl, ← hk, Db.lookup_update, all_updateproc]
        · unfold put
          rw [clocktimeOf_raw]
        · rw [hk, hl]
          exact hasClocktime_raw o
    · have hraw : key.raw ≠ m.key.raw := fun he => hk (by cases m.key; cases key; simp_all)
      have hsame : {x | x ∈ insert m done ∧ x.key = key} = {x | x ∈ done ∧ x.key = key} := by
        ext x
        simp only [Set.mem_insert_iff, Set.mem_ofPred_eq]
        constructor
        · rintro ⟨rfl | hx, hkx⟩
          · exact absurd hkx hk
          · exact ⟨hx, hkx⟩
        · exact fun hx => ⟨.inr hx.1, hx.2⟩
      refine ⟨o, hsame ▸ hnew, ?_⟩
      rw [hdb, Db.lookup_update_ne hraw]
      exact hl
  · rcases mem_garbage_call hg with hg | ⟨k, ct, hc, rfl⟩
    · exact h.garbage g hg
    · refine ⟨m, hm, ?_⟩
      cases m with
      | set => cases hc
      | delete =>
        cases hc
        rfl

theorem GarbageTimes.call (ht : s.GarbageTimes) (c : Operation) : (s.call c).GarbageTimes := by
  obtain ⟨hmin, hmax⟩ := call_config (s := s) c
  exact ⟨by rw [hmin, hmax]; exact ht.min_le_max, by rw [hmin, hmax]; exact ht.small⟩

theorem Message.Admissible.call (ha : Admissible s ms) (c : Operation) :
    Admissible (s.call c) ms := by
  obtain ⟨hmin, hmax⟩ := call_config (s := s) c
  exact ⟨ha.distinct, ha.order, by rw [hmax]; exact ha.late, by rw [hmin]; exact ha.close⟩

theorem Got.receive : ∀ {l : List Message} {s : Storage} {done : Set Message},
    Got ms key done s → s.GarbageTimes → Admissible s ms → (∀ m ∈ l, m ∈ ms) →
      (∀ m ∈ done, m ∈ ms) → Got ms key (done ∪ {m | m ∈ l}) (s.receive l)
  | [], s, done, h, _, _, _, _ => by
    rw [show done ∪ {m | m ∈ ([] : List Message)} = done by ext m; simp]
    exact h
  | m :: l, s, done, h, ht, ha, hl, hdone => by
    have hm := hl m List.mem_cons_self
    have hdone' : ∀ x ∈ insert m done, x ∈ ms := by
      rintro x (rfl | hx)
      · exact hm
      · exact hdone x hx
    have hset : done ∪ {x | x ∈ m :: l} = insert m done ∪ {x | x ∈ l} := by
      ext x
      simp only [List.mem_cons, Set.mem_union, Set.mem_ofPred_eq, Set.mem_insert_iff]
      tauto
    rw [hset]
    exact (h.step ht ha hm hdone).receive (ht.call _) (ha.call _)
      (fun x hx => hl x (List.mem_cons_of_mem _ hx)) hdone'

/-- From an empty storage, the newest message of a key decides what is read, in whatever order and
however often the messages come. -/
theorem receive_converges (ht : s.GarbageTimes) (ha : Admissible s ms) (hdb : s.db = ∅)
    (hg : s.garbage = []) (key : DBKey) :
    ∃ o, IsNewest clocktime {m | m ∈ ms ∧ m.key = key} o ∧
      ∀ l : List Message, (∀ m, m ∈ l ↔ m ∈ ms) → (s.receive l).get key.raw = o.bind value := by
  have hstart : Got ms key ∅ s := by
    refine ⟨⟨none, ?_, ?_⟩, fun g hm => ?_⟩
    · ext m
      simp
    · rw [hdb]
      rfl
    · rw [hg] at hm
      cases hm
  have hgot : ∀ l : List Message, (∀ m, m ∈ l ↔ m ∈ ms) →
      ∃ o, IsNewest clocktime {m | m ∈ ms ∧ m.key = key} o ∧
        (s.receive l).db.lookup key.raw = o.map raw := by
    intro l hl
    have h := (hstart.receive ht ha (fun m hm => (hl m).1 hm) (by simp)).newest
    rw [Set.empty_union, show {m | m ∈ l} = {m | m ∈ ms} by ext m; exact hl m] at h
    exact h
  obtain ⟨o, ho, -⟩ := hgot ms fun _ => Iff.rfl
  refine ⟨o, ho, fun l hl => ?_⟩
  obtain ⟨o', ho', hlook⟩ := hgot l hl
  have hoo : o' = o := ho'.unique ha.order (fun m hm => ⟨m, hm.1, rfl⟩) ho
  unfold get
  rw [hlook, hoo]
  cases o with
  | none => rfl
  | some m => exact m.filter_raw

/-! Two orders of the same messages. -/

section Sample

open Sample

def sampleKey : DBKey := ⟨entryKey, meta_le_entryKey⟩

/-- The key `l`. -/
def otherKey : DBKey := ⟨[0, 0, 0, 0, 0, 0, 0, 0, 108], by decide⟩

def sampleValue : DBValue := ⟨entryVal, meta_le_entryVal⟩

/-- A set of a key, and deletes of it and of another one. -/
def messages (set delete other : ClockTime) : List Message :=
  [.delete sampleKey delete, .delete otherKey other,
    .set sampleKey (sampleValue.setClocktime set)]

/-- Garbage is kept for between 20 and 100 seconds. -/
def sampleStorage : Storage := ⟨∅, [], 20, 100, 1000⟩

theorem strictTotal_clocktimes
    (htrans : ∀ x ∈ ms, ∀ y ∈ ms, ∀ z ∈ ms, x.clocktime < y.clocktime →
      y.clocktime < z.clocktime → x.clocktime < z.clocktime)
    (htotal : ∀ x ∈ ms, ∀ y ∈ ms, x.clocktime = y.clocktime ∨ x.clocktime < y.clocktime ∨
      y.clocktime < x.clocktime) : StrictTotal {ct | ∃ m ∈ ms, m.clocktime = ct} where
  irrefl x _ := ClockTime.lt_irrefl x
  trans := by
    rintro _ ⟨x, hx, rfl⟩ _ ⟨y, hy, rfl⟩ _ ⟨z, hz, rfl⟩
    exact htrans x hx y hy z hz
  total := by
    rintro _ ⟨x, hx, rfl⟩ _ ⟨y, hy, rfl⟩
    exact htotal x hx y hy

theorem admissible_messages :
    Admissible sampleStorage (messages (.mk' 1 1000) (.mk' 2 1001) (.mk' 3 1010)) where
  distinct := by decide
  order := strictTotal_clocktimes (by decide) (by decide)
  late := by decide
  close := by decide

theorem receive_messages_converges :
    ∃ o, IsNewest clocktime {m | m ∈ messages (.mk' 1 1000) (.mk' 2 1001) (.mk' 3 1010) ∧
        m.key = sampleKey} o ∧
      ∀ l : List Message, (∀ m, m ∈ l ↔ m ∈ messages (.mk' 1 1000) (.mk' 2 1001) (.mk' 3 1010)) →
        (sampleStorage.receive l).get sampleKey.raw = none := by
  obtain ⟨o, ho, hl⟩ := receive_converges ⟨by decide, by decide⟩ admissible_messages rfl rfl
    sampleKey
  have hnone := hl _ fun _ => Iff.rfl
  rw [show (sampleStorage.receive (messages (.mk' 1 1000) (.mk' 2 1001) (.mk' 3 1010))).get
    sampleKey.raw = none by decide +kernel] at hnone
  exact ⟨o, ho, fun l hmem => (hl l hmem).trans hnone.symm⟩

/-- Garbage is kept for 68 years. -/
def longStorage : Storage := ⟨∅, [], 2147483649, 2147483649, 1000⟩

def longMessages : List Message :=
  messages (.mk' 3 2147483649) (.mk' 1 4294967292) (.mk' 2 2147483649)

theorem admissible_longMessages : Admissible longStorage longMessages where
  distinct := by decide
  order := strictTotal_clocktimes (by decide) (by decide)
  late := by decide
  close := by decide

/-- The delete of the other key collects the tombstone of the key, whose time is more than the
range of an `int` after the limit, and then the set is taken for the first there was. -/
theorem longMessages_not_converges :
    Admissible longStorage longMessages ∧ 5 ≤ longStorage.garbageMinTime ∧
      longStorage.garbageMinTime ≤ longStorage.garbageMaxTime ∧
      ¬ ∃ o, IsNewest clocktime {m | m ∈ longMessages ∧ m.key = sampleKey} o ∧
        ∀ l : List Message, (∀ m, m ∈ l ↔ m ∈ longMessages) →
          (longStorage.receive l).get sampleKey.raw = o.bind value := by
  refine ⟨admissible_longMessages, by decide, by decide, ?_⟩
  rintro ⟨o, -, hl⟩
  have hfound := hl longMessages fun _ => Iff.rfl
  have hgone := hl longMessages.reverse fun _ => List.mem_reverse
  rw [← hgone] at hfound
  revert hfound
  decide +kernel

end Sample

end Storage

end Kumofs
