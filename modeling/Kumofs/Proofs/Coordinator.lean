import Kumofs.Proofs.Converge
import Kumofs.Proofs.Durable
import Kumofs.System.Coordinator

/-!
# What `remove` returns

Where the clocktimes of the requests increase, a `Delete` finds nothing in the database that is
newer: `remove` puts its tombstone and returns true, be there a value, a tombstone or nothing at
all. So it tells that the key was there just where it was, that is where the last request for it
was a `Set`.
-/

namespace Kumofs

open Server Storage

variable {key : DBKey} {k val : Bytes} {ct : ClockTime}

/-! ## The storage -/

namespace Storage

variable {x y : Storage} {C : List ClockTime}

/-- All that is in the storage is older. -/
structure Older (x : Storage) (ct : ClockTime) : Prop where
  entries : ∀ k val, x.db.lookup k = some val → clocktimeOf val < ct
  queue : ∀ g ∈ x.garbage, g.1 < ct

/-- A storage that requests with these clocktimes have left: the tombstones in the queue are older
than the values. -/
structure Left (x : Storage) (C : List ClockTime) : Prop where
  entries : ∀ k val, x.db.lookup k = some val →
    valueClocktimeSize ≤ val.length ∧ clocktimeOf val ∈ C
  queue : ∀ g ∈ x.garbage, g.1 ∈ C
  young : ∀ g ∈ x.garbage, ∀ val, x.db.lookup g.2 = some val → valueMetaSize ≤ val.length →
    g.1 < clocktimeOf val

theorem Left.older (h : Left x C) (hct : ∀ c ∈ C, c < ct) : Older x ct :=
  ⟨fun k val hl => hct _ (h.entries k val hl).2, fun g hg => hct _ (h.queue g hg)⟩

theorem Left.mono (h : Left x C) : Left x (ct :: C) :=
  ⟨fun k val hl => ⟨(h.entries k val hl).1, List.mem_cons_of_mem _ (h.entries k val hl).2⟩,
    fun g hg => List.mem_cons_of_mem _ (h.queue g hg), h.young⟩

/-- A value is put. -/
theorem Left.put (h : Left x C) (ho : Older x (clocktimeOf val)) (hv : valueMetaSize ≤ val.length)
    (hC : clocktimeOf val ∈ C)
    (hl : ∀ k', y.db.lookup k' = if k' = k then some val else x.db.lookup k')
    (hg : y.garbage = x.garbage) : Left y C := by
  have hlen : valueClocktimeSize ≤ val.length := by
    unfold valueMetaSize at hv
    omega
  refine ⟨fun k' val' h' => ?_, fun g hm => h.queue g (hg ▸ hm), fun g hm val' h' hv' => ?_⟩
  · rw [hl] at h'
    split_ifs at h' with hk
    · cases h'
      exact ⟨hlen, hC⟩
    · exact h.entries k' val' h'
  · rw [hl] at h'
    rw [hg] at hm
    split_ifs at h' with hk
    · cases h'
      exact ho.queue g hm
    · exact h.young g hm val' h' hv'

/-- The queue takes no value. -/
theorem lookup_drain_live {u : ClockTime} (hv : valueMetaSize ≤ val.length) :
    ∀ {gs : List (ClockTime × Bytes)} {db : Db},
    (∀ g ∈ gs, ∀ val, db.lookup g.2 = some val → valueMetaSize ≤ val.length →
      g.1 < clocktimeOf val) →
    db.lookup k = some val → (drain x u db gs).db.lookup k = some val
  | [], _, _, hl => hl
  | g :: gs, db, hy, hl => by
    have hgs := fun g' hg' => hy g' (List.mem_cons_of_mem g hg')
    have hlen : valueClocktimeSize ≤ val.length := (Nat.le_add_right _ _).trans hv
    have hkept : (db.del g.2 (updateprocEq g.1)).lookup k = some val :=
      lookup_del_kept hl hlen fun hk hle => hle (hy g List.mem_cons_self val (hk ▸ hl) hv)
    have hdel : (drain x u (db.del g.2 (updateprocEq g.1)) gs).db.lookup k = some val :=
      lookup_drain_live hv (fun g' hg' val' hl' => hgs g' hg' val' (Db.lookup_of_del hl')) hkept
    unfold drain
    split_ifs
    · exact hdel
    · exact lookup_drain_live hv hgs hl
    · exact hdel
    · exact hl

theorem isSome_get : (x.get k).isSome = true ↔
    ∃ val, x.db.lookup k = some val ∧ valueMetaSize ≤ val.length := by
  simp [get, Option.any_eq_true]

theorem not_meta_le_clocktimeTo : ¬ valueMetaSize ≤ (clocktimeTo ct).length := by
  rw [length_clocktimeTo]
  unfold valueMetaSize
  omega

/-! `remove` puts its tombstone whatever is there. -/

theorem Left.remove_snd (h : Left x C) (ho : Older x ct) : (x.remove k ct).2 = true := by
  rw [Storage.remove_snd, all_updateproc fun val hl => (h.entries k val hl).1]
  cases hl : x.db.lookup k with
  | none => rfl
  | some val => simpa using ho.entries k val hl

theorem Left.lookup_tombstone (h : Left x C) (ho : Older x ct) (k' : Bytes) :
    (x.db.update k (clocktimeTo ct) (updateproc ct)).1.lookup k' =
      if k' = k then some (clocktimeTo ct) else x.db.lookup k' := by
  split_ifs with hk
  · rw [hk, Db.lookup_update, ← Storage.remove_snd, h.remove_snd ho, if_pos rfl]
  · exact Db.lookup_update_ne hk

theorem Left.young_tombstone (h : Left x C) (ho : Older x ct) :
    ∀ g ∈ x.garbage ++ [(ct, k)], ∀ val,
      (x.db.update k (clocktimeTo ct) (updateproc ct)).1.lookup g.2 = some val →
      valueMetaSize ≤ val.length → g.1 < clocktimeOf val := by
  intro g hg val hl hv
  rw [h.lookup_tombstone ho] at hl
  split_ifs at hl with hk
  · cases hl
    exact absurd hv not_meta_le_clocktimeTo
  · rw [List.mem_append, List.mem_singleton] at hg
    rcases hg with hg | rfl
    · exact h.young g hg val hl hv
    · exact absurd rfl hk

theorem Left.remove (h : Left x C) (ho : Older x ct) (hC : ct ∈ C) :
    Left (x.remove k ct).1 C := by
  have heq := remove_fst (h.remove_snd ho (k := k))
  refine ⟨fun k' val hl => ?_, fun g hg => ?_, fun g hg val hl => ?_⟩
  · rcases lookup_of_remove hl with ⟨-, rfl⟩ | hl
    · rw [length_clocktimeTo, clocktimeOf_clocktimeTo]
      exact ⟨le_rfl, hC⟩
    · exact h.entries k' val hl
  · rw [heq] at hg
    rcases List.mem_append.1 (mem_garbage_drain hg) with hg | hg
    · exact h.queue g hg
    · rw [List.mem_singleton.1 hg]
      exact hC
  · rw [heq] at hg
    exact h.young_tombstone ho g (mem_garbage_drain hg) val (lookup_update_of_remove hl)

theorem Left.isSome_get_remove (h : Left x C) (ho : Older x ct) (k' : Bytes) :
    ((x.remove k ct).1.get k').isSome = (k' != k && (x.get k').isSome) := by
  rw [Bool.eq_iff_iff, Bool.and_eq_true, bne_iff_ne, isSome_get, isSome_get]
  constructor
  · rintro ⟨val, hl, hv⟩
    have hl := lookup_update_of_remove hl
    rw [h.lookup_tombstone ho] at hl
    split_ifs at hl with hk
    · cases hl
      exact absurd hv not_meta_le_clocktimeTo
    · exact ⟨hk, val, hl, hv⟩
  · rintro ⟨hk, val, hl, hv⟩
    refine ⟨val, ?_, hv⟩
    rw [remove_fst (h.remove_snd ho)]
    refine lookup_drain_live hv (h.young_tombstone ho) ?_
    rw [h.lookup_tombstone ho, if_neg hk]
    exact hl

end Storage

/-! ## Requests -/

namespace Coordinator

variable {s s' : State} {h h' : Handler} {o : Option ℕ} {C : List ClockTime} {log : List Served}

/-- The last operation on the key was a `Set`. -/
def lastWasSet (rawKey : Bytes) : List Served → Bool
  | [] => false
  | .set key :: log => key.raw == rawKey || lastWasSet rawKey log
  | .delete key _ _ :: log => key.raw != rawKey && lastWasSet rawKey log

/-- The clocktimes increase. -/
def Increasing (s : Coordinator) : Act → Prop
  | .go => ∀ r ∈ s.cur, r.2.pc = .stamp →
    ∀ c ∈ s.stamps, c < s.srv.clock.clockIncrClocktime.1
  | _ => True

instance (s : Coordinator) (a : Act) : Decidable (s.Increasing a) :=
  match a with
  | .go => inferInstanceAs (Decidable (∀ r ∈ s.cur, r.2.pc = .stamp →
    ∀ c ∈ s.stamps, c < s.srv.clock.clockIncrClocktime.1))
  | .request .. | .clock _ => inferInstanceAs (Decidable True)

/-- What the log says of the storage. -/
structure Kept (x : Storage) (C : List ClockTime) (log : List Served) : Prop where
  left : x.Left C
  live : ∀ rawKey, (x.get rawKey).isSome = lastWasSet rawKey log
  told : ∀ key live deleted pre, .delete key live deleted :: pre <:+ log →
    deleted = true ∧ live = lastWasSet key.raw pre

variable {x y : Storage}

theorem Kept.mono (hk : Kept x C log) : Kept x (ct :: C) log :=
  ⟨hk.left.mono, hk.live, hk.told⟩

theorem Kept.set (hk : Kept x C log) (ho : x.Older (clocktimeOf val))
    (hv : valueMetaSize ≤ val.length) (hC : clocktimeOf val ∈ C)
    (hl : ∀ k, y.db.lookup k = if k = key.raw then some val else x.db.lookup k)
    (hg : y.garbage = x.garbage) : Kept y C (.set key :: log) := by
  refine ⟨hk.left.put ho hv hC hl hg, fun rawKey => ?_, fun key' live deleted pre hs => ?_⟩
  · unfold lastWasSet
    rw [← hk.live, Bool.eq_iff_iff, Bool.or_eq_true, beq_iff_eq, isSome_get, isSome_get, hl]
    split_ifs with hr
    · simp [hr, hv]
    · simp [Ne.symm hr]
  · rcases List.suffix_cons_iff.1 hs with he | hs
    · cases he
    · exact hk.told key' live deleted pre hs

theorem Kept.delete (hk : Kept x C log) (ho : x.Older ct) (hC : ct ∈ C) :
    Kept (x.remove key.raw ct).1 C
      (.delete key (x.get key.raw).isSome (x.remove key.raw ct).2 :: log) := by
  refine ⟨hk.left.remove ho hC, fun rawKey => ?_, fun key' live deleted pre hs => ?_⟩
  · unfold lastWasSet
    rw [hk.left.isSome_get_remove ho, hk.live, bne_comm]
  · rcases List.suffix_cons_iff.1 hs with he | hs
    · cases he
      exact ⟨hk.left.remove_snd ho, hk.live _⟩
    · exact hk.told key' live deleted pre hs

/-- A handler that has still to write. -/
def Ready (h : Handler) : Prop := h.pc = .apply ∨ h.pc = .send ∧ ∃ val async, h.op = .set val async

/-- Its clocktime is the newest. -/
def Fresh (x : Storage) (C : List ClockTime) (h : Handler) : Prop :=
  Ready h → h.ct ∈ C ∧ x.Older h.ct

theorem fresh_of_not_ready (hp : h.pc ≠ .apply)
    (hs : h.pc = .send → ∀ val async, h.op ≠ .set val async) : Fresh x C h := by
  rintro (hr | ⟨hr, val, async, hop⟩)
  · exact absurd hr hp
  · exact absurd hop (hs hr val async)

/-- The stamps when the handler has gone on. -/
def stampsOf (h h' : Handler) (C : List ClockTime) : List ClockTime :=
  if h.pc = .stamp then h'.ct :: C else C

theorem stampsOf_ne (hp : h.pc ≠ .stamp) : stampsOf h h' C = C := if_neg hp

theorem Kept.stamped (hk : Kept s.storage C log)
    (hinc : ∀ c ∈ C, c < s.clock.clockIncrClocktime.1) (hp : h.pc = .stamp)
    (hct : h'.ct = s.clock.clockIncrClocktime.1) :
    Kept s.storage (stampsOf h h' C) log ∧ Fresh s.storage (stampsOf h h' C) h' := by
  unfold stampsOf
  rw [if_pos hp, hct]
  refine ⟨hk.mono, fun _ => ?_⟩
  rw [hct]
  exact ⟨List.mem_cons_self, hk.left.older hinc⟩

/-- A step that does nothing to the database and takes no clocktime. -/
theorem Kept.same (hk : Kept s.storage C log) (hp : h.pc ≠ .stamp) (hs : s'.storage = s.storage)
    (hd : served key s h = none) :
    Kept s'.storage (stampsOf h h' C) ((served key s h).toList ++ log) := by
  rw [hs, stampsOf_ne hp, hd]
  exact hk

theorem cas_fst_of_false {compare : ClockTime} (hc : (x.cas k val compare).2 = false) :
    (x.cas k val compare).1 = x := by
  unfold cas
  simp only [Db.update_fst_of_false hc]

theorem meta_le_rawVal (hop : h.op.isDelete = false) : valueMetaSize ≤ h.rawVal.length := by
  unfold Handler.rawVal
  cases hh : h.op with
  | set val async => exact (val.setClocktime h.ct).meta_le
  | cas val => exact (val.setClocktime h.ct).meta_le
  | delete async => simp [hh, Op.isDelete] at hop

/-- The handler puts its value. -/
theorem Kept.wrote (hk : Kept s.storage C log) (hf : Fresh s.storage C h) (hr : Ready h)
    (hp : h.pc ≠ .stamp) (hop : h.op.isDelete = false) (hd : served key s h = some (.set key))
    (hl : ∀ k, s'.storage.db.lookup k =
      if k = key.raw then some h.rawVal else s.storage.db.lookup k)
    (hg : s'.storage.garbage = s.storage.garbage) :
    Kept s'.storage (stampsOf h h' C) ((served key s h).toList ++ log) := by
  obtain ⟨hC, ho⟩ := hf hr
  rw [← h.clocktimeOf_rawVal] at hC ho
  rw [stampsOf_ne hp, hd]
  exact hk.set ho (meta_le_rawVal hop) hC hl hg

theorem Kept.removed {async : Bool} (hk : Kept s.storage C log) (hf : Fresh s.storage C h)
    (hp : h.pc = .apply) (hop : h.op = .delete async)
    (hs : s'.storage = (s.storage.remove key.raw h.ct).1) :
    Kept s'.storage (stampsOf h h' C) ((served key s h).toList ++ log) := by
  obtain ⟨hC, ho⟩ := hf (.inl hp)
  have hd : served key s h = some (.delete key (s.storage.get key.raw).isSome
    (s.storage.remove key.raw h.ct).2) := by simp [served, hp, hop]
  rw [stampsOf_ne (by simp [hp]), hd, hs]
  exact hk.delete ho hC

theorem Kept.step (hk : Kept s.storage C log) (hf : Fresh s.storage C h)
    (hinc : h.pc = .stamp → ∀ c ∈ C, c < s.clock.clockIncrClocktime.1)
    (m : Handler.Moves key s h s' h' o) :
    Kept s'.storage (stampsOf h h' C) ((served key s h).toList ++ log) ∧
      Fresh s'.storage (stampsOf h h' C) h' := by
  cases m with
  | refused hp | computed hp =>
    exact ⟨hk.same (by simp [hp]) rfl (by simp [served, hp]),
      fresh_of_not_ready (by simp) (by simp)⟩
  | stampedSet hp | stamped hp =>
    rw [show served key s h = none by simp [served, hp]]
    exact hk.stamped (hinc hp) hp rfl
  | idle hp hop =>
    obtain ⟨val, async, hop⟩ := hop
    have hne : h.pc ≠ .stamp := by simp [hp]
    exact ⟨hk.same hne rfl (by simp [served, hp, hop]), by rwa [stampsOf_ne hne]⟩
  | casDone hp hop hc =>
    refine ⟨hk.wrote hf (.inl hp) (by simp [hp]) (by simp [hop, Op.isDelete])
      (by simp [served, hp, hop, hc]) (fun k => ?_) rfl,
      fresh_of_not_ready (by simp [Handler.prepare]) (by simp [Handler.prepare, hop])⟩
    split_ifs with hk
    · rw [hk, lookup_cas, hc, if_pos rfl]
    · exact Db.lookup_update_ne hk
  | casFailed hp hop hc =>
    exact ⟨hk.same (by simp [hp]) (cas_fst_of_false hc) (by simp [served, hp, hop, hc]),
      fresh_of_not_ready (by simp) (by simp)⟩
  | deleteDone hp hop =>
    exact ⟨hk.removed hf hp hop rfl,
      fresh_of_not_ready (by simp [Handler.prepare]) (by simp [Handler.prepare, hop])⟩
  | deleteNothing hp hop =>
    exact ⟨hk.removed hf hp hop rfl, fresh_of_not_ready (by simp) (by simp)⟩
  | deleteElsewhere hp hop =>
    exact ⟨hk.removed hf hp hop rfl,
      fresh_of_not_ready (by simp [Handler.prepare]) (by simp [Handler.prepare, hop])⟩
  | send hp hi =>
    have hne : h.pc ≠ .stamp := by simp [hp]
    refine ⟨hk.same hne rfl (by simp only [served, hp, hi]; cases h.op <;> rfl), ?_⟩
    rw [stampsOf_ne hne]
    exact hf
  | written hp hi hop =>
    refine ⟨hk.wrote hf (.inr ⟨hp, _, _, hop⟩) (by simp [hp]) (by simp [hop, Op.isDelete])
      (by simp only [served, hp, hop, hi, if_true]) (fun k => ?_) rfl,
      fresh_of_not_ready (by simp) (by simp)⟩
    split_ifs with hk
    · rw [hk]
      exact lookup_set
    · exact AList.lookup_insert_ne hk
  | casSent hp hi hop | deleteSent hp hi hop =>
    exact ⟨hk.same (by simp [hp]) rfl (by simp [served, hp, hop]),
      fresh_of_not_ready (by simp) (by simp)⟩
  | ended hp =>
    have hne : h.pc ≠ .stamp ∧ h.pc ≠ .apply ∧ h.pc ≠ .send := by
      rcases hp with hp | hp <;> simp [hp]
    refine ⟨hk.same hne.1 rfl ?_, fresh_of_not_ready hne.2.1 fun hs => absurd hs hne.2.2⟩
    rcases hp with hp | hp <;> simp [served, hp]

variable {self : Address} {c t : Coordinator} {a : Act}

structure Inv (c : Coordinator) : Prop where
  kept : Kept c.srv.storage c.stamps c.log
  fresh : ∀ r, c.cur = some r → Fresh c.srv.storage c.stamps r.2

theorem init_inv {srv : State} (hdb : srv.storage.db = ∅) (hg : srv.storage.garbage = []) :
    (init srv).Inv := by
  have hl : ∀ k, srv.storage.db.lookup k = none := by
    intro k
    rw [hdb]
    exact AList.lookup_empty k
  refine ⟨⟨⟨fun k val h => ?_, fun g hm => ?_, fun g hm => ?_⟩, fun k => ?_,
    fun key live deleted pre hs => ?_⟩, fun r hr => ?_⟩
  · simp [init, hl] at h
  · simp [init, hg] at hm
  · simp [init, hg] at hm
  · simp [init, Storage.get, hl, lastWasSet]
  · simp [init] at hs
  · simp [init] at hr

theorem step_inv (h : c.Inv) (hinc : c.Increasing a) (hs : step self c a = some t) : t.Inv := by
  cases a with
  | request key op =>
    unfold step at hs
    split_ifs at hs
    cases hs
    refine ⟨h.kept, fun r hr => ?_⟩
    cases hr
    exact fresh_of_not_ready (by simp [Handler.init]) (by simp [Handler.init])
  | go =>
    simp only [step, Option.map_eq_some_iff] at hs
    obtain ⟨r, hr, rfl⟩ := hs
    obtain ⟨hk, hf⟩ := h.kept.step (h.fresh r hr) (hinc r hr) (r.2.step_moves r.1 c.srv)
    refine ⟨hk, fun r' hr' => ?_⟩
    unfold goOn at hr'
    simp only [] at hr'
    split_ifs at hr'
    cases hr'
    exact hf
  | clock clock =>
    cases hs
    exact ⟨h.kept, h.fresh⟩

/-- `remove` tells whether the key had a value just where the last operation on it was a `Set`. -/
theorem remove_tells_iff {srv : State} {as : List Act}
    (hrun : Machine.Run (step self) Increasing (init srv) as c) (hdb : srv.storage.db = ∅)
    (hg : srv.storage.garbage = []) {live deleted : Bool} {pre : List Served}
    (hs : .delete key live deleted :: pre <:+ c.log) :
    (live = true ↔ lastWasSet key.raw pre = true) ∧
      ((deleted = true ↔ live = true) ↔ lastWasSet key.raw pre = true) := by
  have hinv : c.Inv := hrun.inv (fun _ _ _ hi hp hst => step_inv hi hp hst) (init_inv hdb hg)
  obtain ⟨rfl, rfl⟩ := hinv.kept.told key live deleted pre hs
  simp

/-! A server without replicas. -/

section Sample

open Sample StoreNet

def setRun : List Act :=
  [.request sampleCfg.key (.set ⟨entryVal, meta_le_entryVal⟩ false), .go, .go, .go]

def deleteRun : List Act := [.request sampleCfg.key (.delete false), .go, .go, .go, .go]

theorem setRun_deleteRun : ((Machine.execIf (step (svr 1)) Increasing
    (init (emptyServer oneSeed oneSeed)) (setRun ++ deleteRun)).any fun c =>
      c.log = [.delete sampleCfg.key true true, .set sampleCfg.key]) = true := by
  decide +kernel

theorem remove_tells_setRun : ∃ c : Coordinator,
    Machine.Run (step (svr 1)) Increasing (init (emptyServer oneSeed oneSeed))
      (setRun ++ deleteRun) c ∧
    .delete sampleCfg.key true true :: [.set sampleCfg.key] <:+ c.log ∧
    lastWasSet sampleCfg.key.raw [.set sampleCfg.key] = true := by
  obtain ⟨c, hc, hlog⟩ := (Option.any_eq_true _ _).1 setRun_deleteRun
  have hrun := Machine.execIf_run hc
  have hs : .delete sampleCfg.key true true :: [.set sampleCfg.key] <:+ c.log := by
    rw [of_decide_eq_true hlog]
  exact ⟨c, hrun, hs, (remove_tells_iff hrun rfl rfl hs).1.1 rfl⟩

theorem deleteRun_deleteRun : ((Machine.execIf (step (svr 1)) Increasing
    (init (emptyServer oneSeed oneSeed)) (deleteRun ++ deleteRun)).any fun c =>
      c.log = [.delete sampleCfg.key false true, .delete sampleCfg.key false true]) = true := by
  decide +kernel

/-- `remove` returns true for a key that was never set, and for one that is deleted already. -/
theorem remove_true_of_absent :
    (emptyServer oneSeed oneSeed).whs = (emptyServer oneSeed oneSeed).rhs ∧
    ∃ c : Coordinator, Machine.Run (step (svr 1)) Increasing (init (emptyServer oneSeed oneSeed))
      (deleteRun ++ deleteRun) c ∧
    c.log = [.delete sampleCfg.key false true, .delete sampleCfg.key false true] ∧
    ¬ ∀ key live deleted pre, .delete key live deleted :: pre <:+ c.log →
      (deleted = true ↔ live = true) := by
  obtain ⟨c, hc, hlog⟩ := (Option.any_eq_true _ _).1 deleteRun_deleteRun
  have hlog := of_decide_eq_true hlog
  refine ⟨rfl, c, Machine.execIf_run hc, hlog, fun hall => ?_⟩
  have hiff := hall sampleCfg.key false true [.delete sampleCfg.key false true] (by rw [hlog])
  simp at hiff

end Sample

end Coordinator

end Kumofs
