import Kumofs.Proofs.Durable
import Kumofs.System.Receiver

/-!
# What an acknowledgement hides

`update` returns false when the record is newer and when the call of the database fails, and
neither the handler of `ReplicateSet` nor that of a stream tells these apart. Where a call fails
only on a record that is not older than what was sent, what is acknowledged is there, unless the
server itself puts an older value over it or deletes it before the acknowledgement.
-/

namespace Kumofs

open Newest Machine

namespace Storage

variable {C : Set ClockTime} {s : Storage} {key val k : Bytes} {fails : Bool} {t ct : ClockTime}

/-- A raw value with a clocktime of `C`. -/
def Stamped (C : Set ClockTime) (val : Bytes) : Prop :=
  valueClocktimeSize ≤ val.length ∧ clocktimeOf val ∈ C

theorem stamped_value (v : DBValue) (h : v.clocktime ∈ C) : Stamped C v.raw :=
  ⟨le_trans (by decide) v.meta_le, h⟩

theorem stamped_tombstone (h : ct ∈ C) : Stamped C (clocktimeTo ct) :=
  ⟨le_of_eq (length_clocktimeTo ct).symm, by rw [clocktimeOf_clocktimeTo]; exact h⟩

theorem AllVals.hasClocktime (h : AllVals (Stamped C) s.db) : HasClocktime (s.db.lookup key) :=
  fun e he => (h key e he).1

theorem AllVals.updateOn (h : AllVals (Stamped C) s.db) (hv : Stamped C val) :
    AllVals (Stamped C) (s.updateOn fails key val).1.db := by
  unfold Storage.updateOn
  split_ifs
  · exact h
  · exact h.update hv

theorem AllVals.removeOn (h : AllVals (Stamped C) s.db) (hct : ct ∈ C) :
    AllVals (Stamped C) (s.removeOn fails key ct).1.db := by
  unfold Storage.removeOn
  split_ifs
  · exact h
  · exact h.remove (stamped_tombstone hct)

variable (hC : StrictTotal C) (h : AllVals (Stamped C) s.db)
include hC h

/-- An `update` that fails leaves an entry as it is, and any other makes none older. -/
theorem atLeast_updateOn (hv : Stamped C val) (ht : t ∈ C)
    (hl : AtLeast clocktimeOf (s.db.lookup k) t) :
    AtLeast clocktimeOf ((s.updateOn fails key val).1.db.lookup k) t := by
  unfold updateOn
  split_ifs
  · exact hl
  · by_cases hk : k = key
    · subst hk
      rw [lookup_update_put h.hasClocktime]
      exact hl.put hC (fun e he => (h k e he).2) hv.2 ht
    · unfold update
      rw [Db.lookup_update_ne hk]
      exact hl

/-- What was sent is there, if the call fails only where it is already. -/
theorem atLeast_updateOn_self (hv : Stamped C val)
    (hf : fails = true → AtLeast clocktimeOf (s.db.lookup key) (clocktimeOf val)) :
    AtLeast clocktimeOf ((s.updateOn fails key val).1.db.lookup key) (clocktimeOf val) := by
  unfold updateOn
  split_ifs with hfails
  · exact hf hfails
  · rw [lookup_update_put h.hasClocktime]
    exact atLeast_put hC hv.2

theorem atLeast_removeOn (hct : ct ∈ C) (ht : t ∈ C) (hk : fails = false → s.Keeps k key ct)
    (hl : AtLeast clocktimeOf (s.db.lookup k) t) :
    AtLeast clocktimeOf ((s.removeOn fails key ct).1.db.lookup k) t := by
  unfold removeOn
  split_ifs with hfails
  · exact hl
  · have hkeeps := hk (Bool.eq_false_of_not_eq_true hfails)
    by_cases hkey : k = key
    · subst hkey
      rw [lookup_remove_put hkeeps h.hasClocktime]
      exact hl.put hC (fun e he => (h k e he).2)
        (by rw [clocktimeOf_clocktimeTo]; exact hct) ht
    · rw [hkeeps, Db.lookup_update_ne hkey]
      exact hl

end Storage

namespace Server

open Storage

variable {C : Set ClockTime} {key : DBKey} {s : State} {h : Handler} {fails : Bool}

namespace Handler

/-- The next step puts the handler's value over whatever there is: the write of a plain `Set`, and a
`CAS` that finds its clocktime. -/
def Overwrites (key : DBKey) (s : State) (h : Handler) : Prop :=
  match h.pc, h.op with
  | .apply, .cas val => (s.storage.db.lookup key.raw).all (casproc val.clocktime) = true
  | .send, .set _ _ => h.calls.findIdx? (·.status = .unsent) = none
  | _, _ => False

instance (key : DBKey) (s : State) (h : Handler) : Decidable (h.Overwrites key s) := by
  unfold Overwrites
  split <;> infer_instance

/-- The next step is the `remove` of a `Delete`. -/
def Removes (h : Handler) : Prop := h.pc = .apply ∧ h.op.isDelete = true

instance (h : Handler) : Decidable h.Removes := inferInstanceAs (Decidable (_ ∧ _))

/-- What the next step of a handler makes of the table. -/
theorem storage_step (key : DBKey) (s : State) (h : Handler) :
    (h.step key s).1.storage.db = s.storage.db ∨
    h.Overwrites key s ∧ (h.step key s).1.storage.db = s.storage.db.insert key.raw h.rawVal ∨
    h.Removes ∧ (h.step key s).1.storage.db = (s.storage.remove key.raw h.ct).1.db := by
  have m := step_moves key s h
  generalize (h.step key s).1 = s', (h.step key s).2.1 = h', (h.step key s).2.2 = o at m
  cases m with
  | casDone hp hop hr =>
    have hall : (s.storage.db.lookup key.raw).all (casproc _) = true := Db.update_snd ▸ hr
    refine .inr (.inl ⟨?_, ?_⟩)
    · unfold Overwrites
      rw [hp, hop]
      exact hall
    · unfold cas Db.update
      simp only []
      split
      · rfl
      · rename_i old hold
        rw [hold, Option.all_some] at hall
        rw [if_pos hall]
  | casFailed hp hop hr =>
    exact .inl (Db.update_fst_of_false hr)
  | deleteDone hp hop hr => exact .inr (.inr ⟨⟨hp, by rw [hop]; rfl⟩, rfl⟩)
  | deleteNothing hp hop hr => exact .inr (.inr ⟨⟨hp, by rw [hop]; rfl⟩, rfl⟩)
  | deleteElsewhere hp hop hr => exact .inr (.inr ⟨⟨hp, by rw [hop]; rfl⟩, rfl⟩)
  | written hp hi hop =>
    refine .inr (.inl ⟨?_, rfl⟩)
    unfold Overwrites
    rw [hp, hop]
    exact hi
  | _ => exact .inl rfl

theorem storage_stepFailing (key : DBKey) (s : State) (h : Handler) :
    (h.stepFailing key s).1.storage.db = s.storage.db := by
  unfold stepFailing
  split
  · rfl
  · rfl
  · rename_i hp hop
    split
    · rfl
    · rename_i hi
      rcases storage_step key s h with h' | ⟨h', -⟩ | ⟨h', -⟩
      · exact h'
      · unfold Overwrites at h'
        rw [hp, hop] at h'
        rw [h'] at hi
        cases hi
      · rw [Removes, hp] at h'
        cases h'.1
  · rename_i hcas hdel hset
    rcases storage_step key s h with h' | ⟨h', -⟩ | ⟨h', -⟩
    · exact h'
    · unfold Overwrites at h'
      split at h'
      · rename_i hp hop
        exact absurd hop (hcas _ hp)
      · rename_i hp hop
        exact absurd hop (hset _ _ hp)
      · exact h'.elim
    · obtain ⟨hp, hop⟩ := h'
      cases hh : h.op with
      | delete async => exact absurd hh (hdel _ hp)
      | set val async => simp [hh, Op.isDelete] at hop
      | cas val => simp [hh, Op.isDelete] at hop

end Handler

end Server

namespace Receiver

open Storage Server

variable {C : Set ClockTime} {self : Address} {s s' : Receiver} {act : Act}

/-- What was taken and is not acknowledged yet. -/
def pending (s : Receiver) : List (DBKey × DBValue) := s.replies ++ s.streams.flatten

/-- A call fails only where the record is not older than what is sent, and the clocktimes are those
of `C`. No value that the server itself puts over an entry is older than what is not acknowledged
for its key yet, and no delete, collection or scan takes the entry of such a key. -/
def Guard (C : Set ClockTime) (s : Receiver) : Act → Prop
  | .replicate key (.set _ _ val) fails => val.clocktime ∈ C ∧
    (fails = true → AtLeast clocktimeOf (s.srv.storage.db.lookup key.raw) val.clocktime)
  | .replicate key (.delete _ _ ct) fails => ct ∈ C ∧
    (fails = false → ∀ kv ∈ s.pending, s.srv.storage.Keeps kv.1.raw key.raw ct)
  | .record _ key val fails => val.clocktime ∈ C ∧
    (fails = true → AtLeast clocktimeOf (s.srv.storage.db.lookup key.raw) val.clocktime)
  | .handle i fails => fails = false → ∀ kh ∈ s.handlers[i]?,
    (kh.2.Overwrites kh.1 s.srv → kh.2.ct ∈ C ∧
      ∀ kv ∈ s.pending, kv.1.raw = kh.1.raw → ¬ kh.2.ct < kv.2.clocktime) ∧
    (kh.2.Removes → kh.2.ct ∈ C ∧
      ∀ kv ∈ s.pending, s.srv.storage.Keeps kv.1.raw kh.1.raw kh.2.ct)
  | .delete => ∀ d ∈ s.doomed, ∀ kv ∈ s.pending,
    (d.run s.srv.storage).db.lookup kv.1.raw = s.srv.storage.db.lookup kv.1.raw
  | _ => True

structure Inv (C : Set ClockTime) (s : Receiver) : Prop where
  stored : AllVals (Stamped C) s.srv.storage.db
  taken : ∀ kv ∈ s.pending, kv.2.clocktime ∈ C ∧
    AtLeast clocktimeOf (s.srv.storage.db.lookup kv.1.raw) kv.2.clocktime
  honest : s.Honest

/-- A step that changes no more than the table and keeps what is to be acknowledged. -/
theorem Inv.moved (h : Inv C s) (hdb : AllVals (Stamped C) s'.srv.storage.db)
    (hp : s'.pending = s.pending) (ha : s'.acks = s.acks)
    (hk : ∀ kv ∈ s.pending, kv.2.clocktime ∈ C →
      AtLeast clocktimeOf (s.srv.storage.db.lookup kv.1.raw) kv.2.clocktime →
      AtLeast clocktimeOf (s'.srv.storage.db.lookup kv.1.raw) kv.2.clocktime) : Inv C s' := by
  refine ⟨hdb, fun kv hkv => ?_, ?_⟩
  · rw [hp] at hkv
    obtain ⟨hct, hl⟩ := h.taken kv hkv
    exact ⟨hct, hk kv hkv hct hl⟩
  · unfold Honest
    rw [ha]
    exact h.honest

theorem Inv.unmoved (h : Inv C s) (hdb : s'.srv.storage.db = s.srv.storage.db)
    (hp : s'.pending = s.pending) (ha : s'.acks = s.acks) : Inv C s' :=
  h.moved (hdb ▸ h.stored) hp ha fun _ _ _ hl => hdb ▸ hl

/-- A value is taken that is there. -/
theorem Inv.take {key : DBKey} {val : DBValue} {fails : Bool} (hC : StrictTotal C) (h : Inv C s)
    (hv : val.clocktime ∈ C) (hf : fails = true →
      AtLeast clocktimeOf (s.srv.storage.db.lookup key.raw) val.clocktime)
    (hdb : s'.srv.storage.db = (s.srv.storage.updateOn fails key.raw val.raw).1.db)
    (hp : ∀ kv ∈ s'.pending, kv = (key, val) ∨ kv ∈ s.pending) (ha : s'.acks = s.acks) :
    Inv C s' := by
  have hst := stamped_value val hv
  refine ⟨hdb ▸ h.stored.updateOn hst, fun kv hkv => ?_, ?_⟩
  · rw [hdb]
    rcases hp kv hkv with rfl | hkv
    · exact ⟨hv, atLeast_updateOn_self hC h.stored hst hf⟩
    · obtain ⟨hct, hl⟩ := h.taken kv hkv
      exact ⟨hct, atLeast_updateOn hC h.stored hst hct hl⟩
  · unfold Honest
    rw [ha]
    exact h.honest

/-- Some of what was taken is acknowledged. -/
theorem Inv.acknowledge (h : Inv C s) (kvs : List (DBKey × DBValue)) (hsrv : s'.srv = s.srv)
    (hp : ∀ kv ∈ s'.pending, kv ∈ s.pending) (hkvs : ∀ kv ∈ kvs, kv ∈ s.pending)
    (ha : s'.acks = s.acks ++ kvs.map (ackOf s.srv)) : Inv C s' := by
  refine ⟨hsrv ▸ h.stored, fun kv hkv => hsrv ▸ h.taken kv (hp kv hkv), ?_⟩
  unfold Honest
  rw [ha]
  refine List.forall_mem_append.2 ⟨h.honest, fun a ha => ?_⟩
  obtain ⟨kv, hkv, rfl⟩ := List.mem_map.1 ha
  exact (h.taken kv (hkvs kv hkv)).2

/-- A delete, of a replication or of the server's own. -/
theorem Inv.remove {key : DBKey} {ct : ClockTime} (hC : StrictTotal C) (h : Inv C s) (fails : Bool)
    (hct : ct ∈ C)
    (hk : fails = false → ∀ kv ∈ s.pending, s.srv.storage.Keeps kv.1.raw key.raw ct)
    (hdb : s'.srv.storage.db = (s.srv.storage.removeOn fails key.raw ct).1.db)
    (hp : s'.pending = s.pending) (ha : s'.acks = s.acks) : Inv C s' := by
  refine h.moved (hdb ▸ h.stored.removeOn hct) hp ha fun kv hkv ht hl => ?_
  rw [hdb]
  exact atLeast_removeOn hC h.stored hct ht (fun hf => hk hf kv hkv) hl

theorem Inv.replicate {key : DBKey} {m : Replicate} {fails : Bool} (hC : StrictTotal C)
    (h : Inv C s) (hg : s.Guard C (.replicate key m fails))
    (hs : s.step self (.replicate key m fails) = some s') : Inv C s' := by
  cases hs
  cases m with
  | set c b val =>
    cases hc : checkReplicate self key b s.srv with
    | error e =>
      simp only [replicateOn, hc, answering, List.append_nil]
      exact h.unmoved rfl rfl rfl
    | ok u =>
      simp only [replicateOn, hc, answering]
      refine h.take hC hg.1 hg.2 rfl (fun kv hkv => ?_) rfl
      simp only [pending, List.append_assoc, List.mem_append, List.mem_singleton] at hkv ⊢
      tauto
  | delete c b ct =>
    cases hc : checkReplicate self key b s.srv with
    | error e =>
      simp only [replicateOn, hc, answering, List.append_nil]
      exact h.unmoved rfl rfl rfl
    | ok u =>
      simp only [replicateOn, hc, answering, List.append_nil]
      exact h.remove hC _ hg.1 hg.2 rfl rfl rfl

theorem Inv.record {i : ℕ} {key : DBKey} {val : DBValue} {fails : Bool} (hC : StrictTotal C)
    (h : Inv C s) (hg : s.Guard C (.record i key val fails))
    (hs : s.step self (.record i key val fails) = some s') : Inv C s' := by
  obtain ⟨records, hi, rfl⟩ := Option.map_eq_some_iff.1 hs
  refine h.take hC hg.1 hg.2 rfl (fun kv hkv => ?_) rfl
  rcases List.mem_append.1 hkv with hkv | hkv
  · exact .inr (List.mem_append_left _ hkv)
  · obtain ⟨rs, hrs, hkv⟩ := List.mem_flatten.1 hkv
    rcases List.mem_or_eq_of_mem_set hrs with hrs | rfl
    · exact .inr (List.mem_append_right _ (List.mem_flatten.2 ⟨rs, hrs, hkv⟩))
    · rcases List.mem_cons.1 hkv with rfl | hkv
      · exact .inl rfl
      · exact .inr (List.mem_append_right _
          (List.mem_flatten.2 ⟨records, List.mem_of_getElem? hi, hkv⟩))

/-- The next step of one of the server's own handlers. -/
theorem Inv.handle {i : ℕ} {fails : Bool} (hC : StrictTotal C) (h : Inv C s)
    (hg : s.Guard C (.handle i fails)) (hs : s.step self (.handle i fails) = some s') :
    Inv C s' := by
  obtain ⟨⟨key, hd⟩, hi, rfl⟩ := Option.map_eq_some_iff.1 hs
  cases fails with
  | true =>
    have hdb := Handler.storage_stepFailing key s.srv hd
    exact h.unmoved hdb rfl rfl
  | false =>
    obtain ⟨hover, hrem⟩ := hg rfl (key, hd) hi
    rcases Handler.storage_step key s.srv hd with hdb | ⟨ho, hdb⟩ | ⟨hr, hdb⟩
    · exact h.unmoved hdb rfl rfl
    · obtain ⟨hct, hnew⟩ := hover ho
      have hst : Stamped C hd.rawVal :=
        ⟨Handler.length_rawVal hd, (Handler.clocktimeOf_rawVal hd).symm ▸ hct⟩
      refine h.moved ?_ rfl rfl fun kv hkv _ hl => ?_
      · exact (hdb ▸ h.stored.insert hst :)
      · show AtLeast clocktimeOf ((hd.step key s.srv).1.storage.db.lookup kv.1.raw) _
        rw [hdb]
        by_cases hk : kv.1.raw = key.raw
        · rw [hk, AList.lookup_insert]
          exact ⟨_, rfl, (Handler.clocktimeOf_rawVal hd).symm ▸ hnew kv hkv hk⟩
        · rw [AList.lookup_insert_ne hk]
          exact hl
    · obtain ⟨hct, hk⟩ := hrem hr
      exact h.remove hC false hct (fun _ => hk) hdb rfl rfl

theorem Inv.of_step (hC : StrictTotal C) (h : Inv C s) (hg : s.Guard C act)
    (hs : s.step self act = some s') : Inv C s' := by
  cases act with
  | replicate key m fails => exact h.replicate hC hg hs
  | record i key val fails => exact h.record hC hg hs
  | handle i fails => exact h.handle hC hg hs
  | answer i =>
    obtain ⟨kv, hi, rfl⟩ := Option.map_eq_some_iff.1 hs
    refine h.acknowledge [kv] rfl (fun kv' hkv => ?_) (fun kv' hkv => ?_) rfl
    · exact (List.mem_append.1 hkv).elim
        (fun hkv => List.mem_append_left _ (List.mem_of_mem_eraseIdx hkv))
        (fun hkv => List.mem_append_right _ hkv)
    · obtain rfl := List.mem_singleton.1 hkv
      exact List.mem_append_left _ (List.mem_of_getElem? hi)
  | nil i =>
    obtain ⟨records, hi, rfl⟩ := Option.map_eq_some_iff.1 hs
    have hflat : ∀ rs ∈ s.streams, ∀ kv ∈ rs, kv ∈ s.pending := fun rs hrs kv hkv =>
      List.mem_append_right _ (List.mem_flatten.2 ⟨rs, hrs, hkv⟩)
    refine h.acknowledge records rfl (fun kv hkv => ?_) (fun kv hkv => ?_) rfl
    · rcases List.mem_append.1 hkv with hkv | hkv
      · exact List.mem_append_left _ hkv
      · obtain ⟨rs, hrs, hkv⟩ := List.mem_flatten.1 hkv
        exact hflat rs (List.mem_of_mem_eraseIdx hrs) kv hkv
    · exact hflat records (List.mem_of_getElem? hi) kv hkv
  | connect =>
    cases hs
    exact h.unmoved rfl (by simp [pending]) rfl
  | delete =>
    obtain ⟨d, hd, rfl⟩ := Option.map_eq_some_iff.1 hs
    refine h.moved ?_ rfl rfl fun kv hkv _ hl => (hg d hd kv hkv).symm ▸ hl
    cases d with
    | garbage rawKey limit => exact fun k v hl => h.stored k v (Db.lookup_of_del hl)
    | unassigned rawKey => exact h.stored.erase
  | read rawKey now k =>
    simp only [step] at hs
    split_ifs at hs
    obtain ⟨rawVal, -, rfl⟩ := Option.map_eq_some_iff.1 hs
    exact h.unmoved rfl rfl rfl
  | request key op =>
    cases hs
    exact h.unmoved rfl rfl rfl
  | replaceDelete =>
    cases hs
    exact h.unmoved rfl rfl rfl
  | hashSpaces whs rhs =>
    cases hs
    exact h.unmoved rfl rfl rfl
  | clockUpdate c =>
    cases hs
    exact h.unmoved rfl rfl rfl
  | time t =>
    cases hs
    exact h.unmoved rfl rfl rfl

/-- In runs in which no call of the database fails on a record that is absent or older than what is
sent, and in which the server itself neither puts what is older over an entry that is to be
acknowledged nor deletes it, what is acknowledged is there. -/
theorem honest_of_run (hC : StrictTotal C) {srv : State} {acts : List Act}
    (hdb : AllVals (Stamped C) srv.storage.db)
    (h : Run (step self) (Guard C) (Receiver.init srv) acts s) : s.Honest := by
  have hinit : Inv C (Receiver.init srv) :=
    ⟨hdb, fun kv hkv => absurd hkv List.not_mem_nil, fun a ha => absurd ha List.not_mem_nil⟩
  exact (h.inv (fun _ _ _ hI hg hs => hI.of_step hC hg hs) hinit).honest

/-! Server 1 gets an entry by a stream and another one by a replication, and sets a value itself. -/

section Sample

open Sample StoreNet

instance (C : Set ClockTime) [DecidablePred (· ∈ C)] (s : Receiver) :
    ∀ act, Decidable (s.Guard C act)
  | .replicate _ (.set _ _ _) _ => inferInstanceAs (Decidable (_ ∧ (_ → _)))
  | .replicate _ (.delete _ _ _) _ => inferInstanceAs (Decidable (_ ∧ (_ → _)))
  | .record _ _ _ _ => inferInstanceAs (Decidable (_ ∧ (_ → _)))
  | .handle _ _ => inferInstanceAs (Decidable (_ → _))
  | .delete => inferInstanceAs (Decidable (∀ d ∈ s.doomed, _))
  | .answer _ | .connect | .nil _ | .request _ _ | .replaceDelete | .read _ _ _ | .hashSpaces _ _
  | .clockUpdate _ | .time _ => inferInstanceAs (Decidable True)

def value (ct : ClockTime) : DBValue := DBValue.setClocktime ⟨entryVal, meta_le_entryVal⟩ ct

def sampleKey : DBKey := ⟨entryKey, meta_le_entryKey⟩

/-- The record of the stream is newer than the replication, and its write fails. -/
def streamRun : List Act :=
  [.connect, .record 0 sampleKey (value (.mk' 3 1000)) true,
    .replicate sampleKey (.set 1 false (value (.mk' 1 1000))) false, .answer 0, .nil 0]

/-- A `Set` that is sent to server 2 and then written. -/
def ownSet : List Act := .request sampleKey (.set (value .zero) false) ::
  List.replicate 4 (.handle 0 false)

/-- The `Set` is stamped behind the record of the stream, and comes before the nil. -/
def newerRun : List Act :=
  [.connect, .record 0 sampleKey (value (.mk' 3 1000)) false,
    .replicate sampleKey (.set 1 false (value (.mk' 1 1000))) true, .answer 0, .clockUpdate 4] ++
  ownSet ++ [.nil 0]

theorem streamRun_honest : ∃ s : Receiver,
    Run (step (svr 1)) (Guard {ct | ct ∈ ticks}) (Receiver.init (emptyServer twoSeed twoSeed))
      newerRun s ∧ s.acks.length = 2 ∧ s.Honest := by
  have hrun : ((execIf (step (svr 1)) (Guard {ct | ct ∈ ticks})
      (Receiver.init (emptyServer twoSeed twoSeed)) newerRun).any fun s =>
        decide (s.acks.length = 2)) = true := by
    decide +kernel
  obtain ⟨s, hs, hl⟩ := (Option.any_eq_true _ _).1 hrun
  have hr := execIf_run hs
  have hdb : AllVals (Storage.Stamped {ct | ct ∈ ticks})
      (emptyServer twoSeed twoSeed).storage.db := fun key val hv => by cases hv
  exact ⟨s, hr, of_decide_eq_true hl, honest_of_run strictTotal_ticks hdb hr⟩

instance (s : Receiver) : Decidable s.Honest :=
  inferInstanceAs (Decidable (∀ a ∈ s.acks, AtLeast clocktimeOf a.entry a.ct))

theorem not_honest_of_exec {srv : State} {acts : List Act}
    (h : ((exec (step self) (Receiver.init srv) acts).any fun s => decide (¬ s.Honest)) = true) :
    ∃ s : Receiver, Run (step self) Free (Receiver.init srv) acts s ∧ ¬ s.Honest := by
  obtain ⟨s, hs, hn⟩ := (Option.any_eq_true _ _).1 h
  exact ⟨s, exec_run hs, of_decide_eq_true hn⟩

/-- A replication whose write fails where there is no entry. -/
def failedRun : List Act :=
  [.replicate sampleKey (.set 1 false (value (.mk' 1 1000))) true, .answer 0]

/-- The record of a stream that could not be written is acknowledged by the nil, and so is the
value of a `ReplicateSet`. -/
theorem streamRun_not_honest :
    (∃ s : Receiver, Run (step (svr 1)) Free (Receiver.init (emptyServer twoSeed twoSeed))
      streamRun s ∧ ¬ s.Honest) ∧
    ∃ s : Receiver, Run (step (svr 1)) Free (Receiver.init (emptyServer twoSeed twoSeed))
      failedRun s ∧ ¬ s.Honest := by
  have hstream : ((exec (step (svr 1)) (Receiver.init (emptyServer twoSeed twoSeed))
      streamRun).any fun s => decide (¬ s.Honest)) = true := by
    decide +kernel
  have hfailed : ((exec (step (svr 1)) (Receiver.init (emptyServer twoSeed twoSeed))
      failedRun).any fun s => decide (¬ s.Honest)) = true := by
    decide +kernel
  exact ⟨not_honest_of_exec hstream, not_honest_of_exec hfailed⟩

/-- The stream's record does not move the clock: the `Set` is stamped before it. -/
def olderRun : List Act :=
  [.connect, .record 0 sampleKey (value (.mk' 3 1000)) false] ++ ownSet ++ [.nil 0]

/-- The key is not for this server, and `replace_delete` deletes it before the nil. -/
def deletedRun : List Act :=
  [.connect, .record 0 sampleKey (value (.mk' 3 1000)) false, .replaceDelete,
    .read entryKey (.mk' 4 1000) (some 0), .delete, .nil 0]

/-- No call of the database fails, and the server's own write or its scan makes the acknowledgement
wrong. -/
theorem olderRun_not_honest :
    (∃ s : Receiver, Run (step (svr 1)) Free (Receiver.init (emptyServer twoSeed twoSeed))
      olderRun s ∧ ¬ s.Honest) ∧
    ∃ s : Receiver, Run (step (svr 3)) Free (Receiver.init (emptyServer twoSeed twoSeed))
      deletedRun s ∧ ¬ s.Honest := by
  have holder : ((exec (step (svr 1)) (Receiver.init (emptyServer twoSeed twoSeed))
      olderRun).any fun s => decide (¬ s.Honest)) = true := by
    decide +kernel
  have hdeleted : ((exec (step (svr 3)) (Receiver.init (emptyServer twoSeed twoSeed))
      deletedRun).any fun s => decide (¬ s.Honest)) = true := by
    decide +kernel
  exact ⟨not_honest_of_exec holder, not_honest_of_exec hdeleted⟩

end Sample

end Receiver

end Kumofs
