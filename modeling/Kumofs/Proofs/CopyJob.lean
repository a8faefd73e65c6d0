import Kumofs.Lib.Paired
import Kumofs.Proofs.Copier
import Kumofs.Proofs.Replace
import Kumofs.System.ReplaceNet
import Mathlib.Data.List.Dedup

/-!
# What a server's copy tasks carry

A server's tasks and what they have gathered and sent off, for one key of which every server has
the newest value, older ones or none. A record that a scan finds is with its task, then in a stream
without an acknowledgement, and then at its receiver; when the server reports the end of the copy,
the task and the streams have none left.
-/

namespace Kumofs

open Server

variable {hash : Bytes → UInt64} {key val : Bytes}

/-! ## The newest value -/

/-- The value itself or an older one. The order of clocktimes is no order everywhere, so both
comparisons are said. -/
def Upto (val v : Bytes) : Prop :=
  v = val ∨ Storage.clocktimeOf v < Storage.clocktimeOf val ∧
    Storage.clocktimeOf v ≤ Storage.clocktimeOf val

/-- All that a storage has of a key. -/
def Storage.Holds (key val : Bytes) (s : Storage) : Prop := ∀ v ∈ s.db.lookup key, Upto val v

namespace Server

variable {s : Storage} {o : Offer}

theorem submitMessage_holds (hs : s.Holds key val) (ho : o.key = key → Upto val o.val) :
    (submitMessage s o).Holds key val := by
  intro v hv
  by_cases hk : o.key = key
  · subst hk
    unfold submitMessage Storage.update at hv
    simp only [Db.lookup_update] at hv
    split_ifs at hv
    · exact Option.some.inj hv ▸ ho rfl
    · exact hs v hv
  · rw [lookup_submitMessage hk] at hv
    exact hs v hv

/-- The newest value stays. -/
theorem submitMessage_keeps (hv : valueMetaSize ≤ val.length) (hs : s.db.lookup key = some val)
    (ho : o.key = key → Upto val o.val) : (submitMessage s o).db.lookup key = some val := by
  by_cases hk : o.key = key
  · subst hk
    rcases ho rfl with he | ⟨-, hle⟩
    · rw [← he] at hs ⊢
      exact lookup_submitMessage_self (.inr hs)
    · unfold submitMessage Storage.update
      simp only [Db.lookup_update, hs, Option.all_some]
      have hlen : ¬ val.length < valueClocktimeSize := by
        unfold valueMetaSize at hv
        omega
      rw [if_neg]
      simp only [Storage.updateproc, hlen, if_false, decide_eq_true_eq]
      exact hle
  · rw [lookup_submitMessage hk]
    exact hs

/-- The newest value is taken where it arrives. -/
theorem submitMessage_takes (hs : s.Holds o.key o.val) :
    (submitMessage s o).db.lookup o.key = some o.val := by
  cases hl : s.db.lookup o.key with
  | none => exact lookup_submitMessage_self (.inl hl)
  | some v =>
    rcases hs v hl with rfl | ⟨hlt, -⟩
    · exact lookup_submitMessage_self (.inr hl)
    · unfold submitMessage Storage.update
      simp only [Db.lookup_update, hl, Option.all_some]
      rw [if_pos]
      unfold Storage.updateproc
      split_ifs
      · rfl
      · simpa using hlt

theorem foldl_submitMessage_holds : ∀ (items : List Offer) {s : Storage}, s.Holds key val →
    (∀ o ∈ items, o.key = key → Upto val o.val) → (items.foldl submitMessage s).Holds key val
  | [], _, hs, _ => hs
  | o :: items, _, hs, ho =>
    foldl_submitMessage_holds items (submitMessage_holds hs (ho o List.mem_cons_self))
      fun o h => ho o (List.mem_cons_of_mem _ h)

theorem foldl_submitMessage_keeps (hv : valueMetaSize ≤ val.length) :
    ∀ (items : List Offer) {s : Storage}, s.db.lookup key = some val →
    (∀ o ∈ items, o.key = key → Upto val o.val) →
    (items.foldl submitMessage s).db.lookup key = some val
  | [], _, hs, _ => hs
  | o :: items, _, hs, ho =>
    foldl_submitMessage_keeps hv items (submitMessage_keeps hv hs (ho o List.mem_cons_self))
      fun o h => ho o (List.mem_cons_of_mem _ h)

theorem foldl_submitMessage_takes (hv : valueMetaSize ≤ val.length) {a : Address} :
    ∀ (items : List Offer) {s : Storage}, s.Holds key val →
    (∀ o ∈ items, o.key = key → Upto val o.val) → ⟨a, key, val⟩ ∈ items →
    (items.foldl submitMessage s).db.lookup key = some val
  | [], _, _, _, hm => absurd hm List.not_mem_nil
  | o :: items, s, hs, ho, hm => by
    have ho' : ∀ o ∈ items, o.key = key → Upto val o.val := fun o h =>
      ho o (List.mem_cons_of_mem _ h)
    rcases List.mem_cons.1 hm with rfl | hm
    · exact foldl_submitMessage_keeps hv items (submitMessage_takes (o := ⟨a, key, val⟩) hs) ho'
    · exact foldl_submitMessage_takes hv items
        (submitMessage_holds hs (ho _ List.mem_cons_self)) ho' hm

theorem sweep_holds {now : ClockTime} (hs : s.Holds key val) : (s.sweep now).Holds key val := by
  intro v hv
  rw [Storage.lookup_sweep] at hv
  exact hs v (Option.filter_eq_some_iff.1 hv).1

/-- A delete phase takes records away and changes none. -/
theorem replaceDelete_holds {a : Address} {hs : HashSpace} {now : ClockTime}
    (h : s.Holds key val) : (replaceDelete a hs now s).Holds key val := by
  unfold replaceDelete
  split_ifs
  · exact h
  · intro v hv
    simp only [] at hv
    rw [Db.lookup_foldl_erase (fun kv : Bytes × Bytes => kv.1)] at hv
    split_ifs at hv
    · cases hv
    · exact sweep_holds h v hv

/-- It leaves what is assigned to the server. -/
theorem replaceDelete_keeps {a : Address} {hs : HashSpace} {now : ClockTime}
    (hv : valueMetaSize ≤ val.length) (hl : s.db.lookup key = some val)
    (ha : a ∈ hs.activeAssigned (Storage.hashOf key)) :
    (replaceDelete a hs now s).db.lookup key = some val := by
  by_cases he : hs.empty = true
  · unfold replaceDelete
    rw [if_pos he]
    exact hl
  · rw [lookup_replaceDelete (Bool.eq_false_of_not_eq_true he) fun v hv' => by
      rwa [← Option.some.inj (hl.symm.trans hv')], if_pos (testReplicatorAssign_iff.2 ha)]
    exact hl

theorem mem_forEachFullReplaceCopy {dst : HashSpace} {records : List (Bytes × Bytes)} :
    o ∈ forEachFullReplaceCopy dst records ↔
      (o.key, o.val) ∈ records ∧ o.dest ∈ dst.activeAssigned (Storage.hashOf o.key) := by
  unfold forEachFullReplaceCopy
  simp only [List.mem_flatMap, List.mem_map]
  constructor
  · rintro ⟨⟨k, v⟩, hkv, b, hb, rfl⟩
    exact ⟨hkv, hb⟩
  · rintro ⟨hkv, hb⟩
    exact ⟨_, hkv, _, hb, rfl⟩

end Server

/-! ## Scans -/

namespace ReplaceNet

variable {job : Job} {n : Address} {now : ClockTime} {x : Storage} {r : Storage × List Offer}

/-- A scan sweeps the database, and gathers records that are there. -/
theorem scan_eq (h : Job.scan job n now x = some r) : r.1 = x.sweep now ∧
    ∀ o ∈ r.2, (o.key, o.val) ∈ x.live := by
  unfold Job.scan at h
  split_ifs at h
  · cases h
    exact ⟨rfl, fun o ho => (mem_forEachFullReplaceCopy.1 ho).1⟩
  · obtain ⟨src, -, h⟩ := Option.bind_eq_some_iff.1 h
    split_ifs at h with hskip
    cases h
    unfold replaceCopy
    rw [if_neg hskip]
    exact ⟨rfl, fun o ho => (mem_forEachReplaceCopy.1 ho).1⟩

theorem scan_holds (h : Job.scan job n now x = some r) (hx : x.Holds key val) :
    r.1.Holds key val ∧ ∀ o ∈ r.2, o.key = key → Upto val o.val := by
  obtain ⟨he, hr⟩ := scan_eq h
  refine ⟨he ▸ sweep_holds hx, ?_⟩
  rintro o ho rfl
  exact hx _ (Storage.mem_live.1 (hr o ho)).1

theorem scan_keeps (hv : valueMetaSize ≤ val.length) (h : Job.scan job n now x = some r)
    (hx : x.db.lookup key = some val) : r.1.db.lookup key = some val := by
  rw [(scan_eq h).1, Storage.lookup_sweep_live hx hv]

/-- The first owner that stays gathers a record for each server that is new to it. -/
theorem mem_scan {rs ws : Seed} {a : Address} (hv : valueMetaSize ≤ val.length)
    (h : Job.scan job n now x = some r) (hx : x.db.lookup key = some val)
    (hws : job.hs = .ofSeed hash ws) (hrs : ∀ src ∈ job.src, src = .ofSeed hash rs)
    (hf : (Replacing.owners (.ofSeed hash rs) (.ofSeed hash ws) key).head? = some n)
    (ha : a ∈ newbies (.ofSeed hash rs) (.ofSeed hash ws) (Storage.hashOf key)) :
    ⟨a, key, val⟩ ∈ r.2 := by
  have hlive : (key, val) ∈ x.live := Storage.mem_live.2 ⟨hx, hv⟩
  unfold Job.scan at h
  rw [hws] at h
  split_ifs at h
  · cases h
    exact mem_forEachFullReplaceCopy.2 ⟨hlive, (mem_newbies.1 ha).1⟩
  · obtain ⟨src, hsrc, h⟩ := Option.bind_eq_some_iff.1 h
    rw [hrs src hsrc] at h
    split_ifs at h with hskip
    cases h
    unfold replaceCopy
    rw [if_neg hskip]
    exact mem_forEachReplaceCopy.2 ⟨hlive, mem_copyTargets.2 ⟨hf, ha⟩⟩

theorem mem_streams {records : List Offer} {o : Offer} (h : o ∈ records) :
    ∃ st ∈ streams records, st.1 = o.dest ∧ o ∈ st.2 :=
  ⟨(o.dest, records.filter (·.dest = o.dest)),
    List.mem_map.2 ⟨o.dest, List.mem_dedup.2 (List.mem_map.2 ⟨o, h, rfl⟩), rfl⟩, rfl,
    List.mem_filter.2 ⟨h, by simp⟩⟩

theorem mem_of_mem_streams {records : List Offer} {o : Offer} {st : Address × List Offer}
    (hst : st ∈ streams records) (ho : o ∈ st.2) : o ∈ records := by
  obtain ⟨a, -, rfl⟩ := List.mem_map.1 hst
  exact List.mem_of_mem_filter ho

end ReplaceNet

/-! ## The tasks of a server -/

/-- A copy task and its job; `visited` are the times whose scan has passed the database. -/
structure Fits (visited : List ClockTime) (task : CopyTask) (job : Job) : Prop where
  time : task.replaceTime = job.hs.clocktime
  gathered : job.records.isSome = true → task.phase ≠ .submitted
  passed : job.records.isSome = true ∨ task.phase = .waiting ∨ task.phase = .scanned →
    task.replaceTime ∈ visited
  sentOff : task.phase = .scanned → ∀ r ∈ job.records, r = []

theorem Fits.mono {visited visited' : List ClockTime} {task : CopyTask} {job : Job}
    (h : Fits visited task job) (hv : ∀ u ∈ visited, u ∈ visited') : Fits visited' task job :=
  ⟨h.time, h.gathered, fun hp => hv _ (h.passed hp), h.sentOff⟩

namespace ServerNode

variable {starts : List Start} {x : ServerNode} {c : Copier (List Offer)} {k : ℕ} {job : Job}

/-- What holds of a server when `starts` are the replaces started and `val` is the newest value of
`key`. -/
structure Inv (hash : Bytes → UInt64) (starts : List Start) (key val : Bytes) (x : ServerNode) :
    Prop where
  counts : x.copier.Inv
  fits : List.Forall₂ (Fits x.visited) x.copier.tasks x.jobs
  spaces : ∀ job ∈ x.jobs, ∃ st ∈ starts, job.hs = .ofSeed hash st.wseed
  times : ∀ u ∈ x.visited, ∃ st ∈ starts, st.wseed.clocktime = u
  records : ∀ job ∈ x.jobs, ∀ r ∈ job.records, ∀ o ∈ r, o.key = key → Upto val o.val
  streams : ∀ st ∈ x.copier.unacked, st.replaceTime ∈ x.visited ∧
    ∀ o ∈ st.items, o.key = key → Upto val o.val
  popping : ∀ u ∈ x.copier.popping, u ∈ x.visited
  holds : x.storage.Holds key val

/-- The task or a stream without an acknowledgement has a record. -/
def Carries (x : ServerNode) (u : ClockTime) (o : Offer) : Prop :=
  (∃ st ∈ x.copier.unacked, st.addr = o.dest ∧ st.replaceTime = u ∧ o ∈ st.items) ∨
    ∃ job ∈ x.jobs, job.hs.clocktime = u ∧ ∃ r ∈ job.records, o ∈ r

theorem Inv.mono {starts' : List Start} (h : x.Inv hash starts key val)
    (hs : ∀ st ∈ starts, st ∈ starts') : x.Inv hash starts' key val :=
  { h with
    spaces := fun job hj => (h.spaces job hj).imp fun st hst => ⟨hs st hst.1, hst.2⟩
    times := fun u hu => (h.times u hu).imp fun st hst => ⟨hs st hst.1, hst.2⟩ }

/-- When no scan or stream for a time is left, nothing is carried for it. -/
theorem Inv.not_carries {u : ClockTime} {o : Offer} (h : x.Inv hash starts key val)
    (hq : x.copier.Quiet u) : ¬ x.Carries u o := by
  rintro (⟨st, hst, -, ht, -⟩ | ⟨job, hjob, ht, r, hr, ho⟩)
  · exact hq.streams st hst ht
  · obtain ⟨task, htask, hf⟩ := Paired.mem_right h.fits hjob
    have hsome : job.records.isSome = true := Option.isSome_of_mem hr
    obtain ⟨h1, h2⟩ := hq.scans task htask (hf.time.trans ht)
    cases hp : task.phase with
    | submitted => exact hf.gathered hsome hp
    | scanning => exact h1 hp
    | waiting => exact h2 hp
    | scanned =>
      rw [hf.sentOff hp r hr] at ho
      exact List.not_mem_nil ho

section Set

variable {y : ServerNode} {u : ClockTime} {o : Offer} {job' : Job}

theorem carries_of_set (hjob : x.jobs[k]? = some job) (hjobs : y.jobs = x.jobs.set k job')
    (ht : job'.hs.clocktime = u) {r : List Offer} (hr : r ∈ job'.records) (ho : o ∈ r) :
    y.Carries u o := by
  refine .inr ⟨job', ?_, ht, r, hr, ho⟩
  rw [hjobs]
  exact List.mem_set (List.getElem?_eq_some_iff.1 hjob).1 _

/-- When a job changes, what the others have and the streams is still there. -/
theorem Carries.set (h : x.Carries u o) (hjob : x.jobs[k]? = some job)
    (hun : x.copier.unacked ⊆ y.copier.unacked) (hjobs : y.jobs = x.jobs.set k job')
    (hk : job.hs.clocktime = u → ∀ r ∈ job.records, o ∈ r → y.Carries u o) : y.Carries u o := by
  rcases h with ⟨st, hst, hcar⟩ | ⟨job₀, hj, ht, r, hr, ho⟩
  · exact .inl ⟨st, hun hst, hcar⟩
  · obtain ⟨j, hj⟩ := List.mem_iff_getElem?.1 hj
    by_cases hjk : j = k
    · subst hjk
      have he := Option.some.inj (hjob.symm.trans hj)
      subst he
      exact hk ht r hr ho
    · refine .inr ⟨job₀, List.mem_iff_getElem?.2 ⟨j, ?_⟩, ht, r, hr, ho⟩
      rw [hjobs, List.getElem?_set_ne (Ne.symm hjk)]
      exact hj

end Set

/-! ## Steps -/

theorem Inv.setSpaces (h : x.Inv hash starts key val) (whs rhs : HashSpace) :
    ({ x with whs := whs, rhs := rhs } : ServerNode).Inv hash starts key val :=
  { h with }

theorem Inv.store (h : x.Inv hash starts key val) {s : Storage} (hs : s.Holds key val) :
    ({ x with storage := s } : ServerNode).Inv hash starts key val :=
  { h with holds := hs }

theorem Inv.submit (h : x.Inv hash starts key val) {mgr : Address} {st : Start} {full : Bool}
    (hst : st ∈ starts) :
    ({ x with
      copier := { x.copier with
        tasks := x.copier.tasks ++ [⟨mgr, st.wseed.clocktime, .submitted⟩] }
      jobs := x.jobs ++ [⟨.ofSeed hash st.wseed, full, none, none⟩] } : ServerNode).Inv
        hash starts key val where
  counts := (Copier.step_inv (a := .submit mgr st.wseed.clocktime) h.counts trivial rfl).1
  fits := Paired.concat h.fits ⟨rfl, by simp, by simp, by simp⟩
  spaces job hj := by
    rcases List.mem_append.1 hj with hj | hj
    · exact h.spaces job hj
    · rw [List.mem_singleton.1 hj]
      exact ⟨st, hst, rfl⟩
  times := h.times
  records job hj := by
    rcases List.mem_append.1 hj with hj | hj
    · exact h.records job hj
    · rw [List.mem_singleton.1 hj]
      simp
  streams := h.streams
  popping := h.popping
  holds := h.holds

/-- A change of the phase that only needs the scan to have passed the database. -/
theorem Inv.setPhase {phase phase' : Phase} {task : CopyTask} (h : x.Inv hash starts key val)
    (ht : x.copier.taskIn k phase = some task)
    (hf : ∀ job, x.jobs[k]? = some job → Fits x.visited task job →
      Fits x.visited { task with phase := phase' } job) :
    List.Forall₂ (Fits x.visited) (x.copier.setPhase k task phase').tasks x.jobs :=
  Paired.set_left h.fits fun job hjob =>
    hf job hjob (Paired.getElem?_right h.fits (Copier.taskIn_eq ht).1 hjob)

theorem Inv.begin (h : x.Inv hash starts key val) (hg : Copier.BeginsQuiet x.copier (.begin k))
    (hc : x.copier.step (.begin k) = some c) :
    ({ x with copier := c } : ServerNode).Inv hash starts key val := by
  have hinv := (Copier.step_inv h.counts hg hc).1
  obtain ⟨task, htask, rfl⟩ := Option.map_eq_some_iff.1 hc
  refine { h with counts := hinv, fits := h.setPhase htask fun job _ hf => ?_ }
  exact ⟨hf.time, fun _ => by simp, fun hpass => hf.passed (.inl (by simpa using hpass)), by simp⟩

theorem Inv.resume (h : x.Inv hash starts key val) (hc : x.copier.step (.resume k) = some c) :
    ({ x with copier := c } : ServerNode).Inv hash starts key val := by
  have hinv := (Copier.step_inv (a := .resume k) h.counts trivial hc).1
  obtain ⟨task, htask, hc⟩ := Option.bind_eq_some_iff.1 hc
  split_ifs at hc
  cases hc
  refine { h with counts := hinv, fits := h.setPhase htask fun job _ hf => ?_ }
  have hp := (Copier.taskIn_eq htask).2
  exact ⟨hf.time, fun _ => by simp, fun hpass => hf.passed (.inr (.inl hp)), by simp⟩

section Job

variable {task : CopyTask} {phase : Phase}

/-- A job is changed, but not what it is for. -/
theorem Inv.setJob (h : x.Inv hash starts key val) (htask : x.copier.taskIn k phase = some task)
    (hjob : x.jobs[k]? = some job) (src : Option HashSpace) (records : Option (List Offer))
    (whs : HashSpace) (hr : ∀ r ∈ records, ∀ o ∈ r, o.key = key → Upto val o.val)
    (hf : Fits x.visited task job →
      Fits x.visited task { job with src := src, records := records }) :
    ({ x with
      whs := whs
      jobs := x.jobs.set k { job with src := src, records := records } } : ServerNode).Inv
        hash starts key val where
  counts := h.counts
  fits := Paired.set_right h.fits fun task' ht' => by
    obtain ⟨ht, -⟩ := Copier.taskIn_eq htask
    rw [← Option.some.inj (ht.symm.trans ht')]
    exact hf (Paired.getElem?_right h.fits ht hjob)
  spaces job' hj := by
    rcases List.mem_or_eq_of_mem_set hj with hj | rfl
    · exact h.spaces job' hj
    · exact h.spaces job (List.mem_of_getElem? hjob)
  times := h.times
  records job' hj := by
    rcases List.mem_or_eq_of_mem_set hj with hj | rfl
    · exact h.records job' hj
    · exact hr
  streams := h.streams
  popping := h.popping
  holds := h.holds

theorem Inv.switch (h : x.Inv hash starts key val) (htask : x.copier.taskIn k phase = some task)
    (hjob : x.jobs[k]? = some job) (src whs : HashSpace) :
    ({ x with whs := whs, jobs := x.jobs.set k { job with src := some src } } :
      ServerNode).Inv hash starts key val :=
  h.setJob htask hjob (some src) job.records whs
    (h.records job (List.mem_of_getElem? hjob))
    fun hf => ⟨hf.time, hf.gathered, hf.passed, hf.sentOff⟩

/-- The database is passed for the time of a job. -/
theorem Inv.visit (h : x.Inv hash starts key val) (hjob : x.jobs[k]? = some job) :
    ({ x with visited := job.hs.clocktime :: x.visited } : ServerNode).Inv
      hash starts key val where
  counts := h.counts
  fits := h.fits.imp fun _ _ hf => hf.mono fun _ => List.mem_cons_of_mem _
  spaces := h.spaces
  times u hu := by
    rcases List.mem_cons.1 hu with rfl | hu
    · obtain ⟨st, hst, he⟩ := h.spaces job (List.mem_of_getElem? hjob)
      exact ⟨st, hst, he ▸ rfl⟩
    · exact h.times u hu
  records := h.records
  streams st hst := ⟨List.mem_cons_of_mem _ (h.streams st hst).1, (h.streams st hst).2⟩
  popping u hu := List.mem_cons_of_mem _ (h.popping u hu)
  holds := h.holds

theorem Inv.scan (h : x.Inv hash starts key val)
    (htask : x.copier.taskIn k .scanning = some task) (hjob : x.jobs[k]? = some job)
    {n : Address} {now : ClockTime} {r : Storage × List Offer}
    (hr : ReplaceNet.Job.scan job n now x.storage = some r) :
    ({ x with
      storage := r.1
      jobs := x.jobs.set k { job with records := some r.2 }
      visited := job.hs.clocktime :: x.visited } : ServerNode).Inv hash starts key val := by
  obtain ⟨hs, ho⟩ := ReplaceNet.scan_holds hr h.holds
  refine ((h.visit hjob).setJob htask hjob job.src (some r.2) x.whs ?_ fun hf => ?_).store hs
  · rintro _ ⟨⟩
    exact ho
  · have hp := (Copier.taskIn_eq htask).2
    refine ⟨hf.time, fun _ => by simp [hp], fun _ => ?_, by simp [hp]⟩
    rw [hf.time]
    exact List.mem_cons_self

/-- `goto skip_replace`, where the database is taken for passed. -/
theorem Inv.skip (h : x.Inv hash starts key val) (hjob : x.jobs[k]? = some job)
    (hr : job.records = none) (hvis : job.hs.clocktime ∈ x.visited)
    (hc : x.copier.step (.skip k) = some c) :
    ({ x with copier := c } : ServerNode).Inv hash starts key val := by
  have hinv := (Copier.step_inv (a := .skip k) h.counts trivial hc).1
  obtain ⟨task, htask, rfl⟩ := Option.map_eq_some_iff.1 hc
  refine { h with counts := hinv, fits := h.setPhase htask fun job' hj' hf => ?_ }
  rw [← Option.some.inj (hjob.symm.trans hj')] at hf ⊢
  exact ⟨hf.time, by simp [hr], fun _ => hf.time ▸ hvis, by simp [hr]⟩

/-- Some of the records gathered go off, as streams. -/
theorem Inv.sendOffer (h : x.Inv hash starts key val)
    (htask : x.copier.taskIn k .scanning = some task) (hjob : x.jobs[k]? = some job)
    {records off rest : List Offer} (hr : job.records = some records) (hoff : off ⊆ records)
    (hrest : rest ⊆ records) {phase' : Phase} (hp' : phase' ≠ .submitted)
    (hend : phase' = .scanned → rest = []) :
    ({ x with
      copier := (x.copier.setPhase k task phase').sendOffer task.replaceTime
        (ReplaceNet.streams off)
      jobs := x.jobs.set k { job with records := some rest } } : ServerNode).Inv
        hash starts key val := by
  have hrec := h.records job (List.mem_of_getElem? hjob) records hr
  have hfit := Paired.getElem?_right h.fits (Copier.taskIn_eq htask).1 hjob
  have hvis : task.replaceTime ∈ x.visited := hfit.passed (.inl (by simp [hr]))
  refine ⟨Copier.offer_inv h.counts htask hp', Paired.set h.fits ?_ k, fun job' hj => ?_, h.times,
    fun job' hj => ?_, fun st hst => ?_, h.popping, h.holds⟩
  · refine ⟨hfit.time, fun _ => hp', fun _ => hvis, fun he r hr' => ?_⟩
    rw [← Option.some.inj hr']
    exact hend he
  · rcases List.mem_or_eq_of_mem_set hj with hj | rfl
    · exact h.spaces job' hj
    · exact h.spaces job (List.mem_of_getElem? hjob)
  · rcases List.mem_or_eq_of_mem_set hj with hj | rfl
    · exact h.records job' hj
    · rintro _ ⟨⟩ o ho
      exact hrec o (hrest ho)
  · rcases List.mem_append.1 hst with hst | hst
    · exact h.streams st hst
    · obtain ⟨p, hp, rfl⟩ := List.mem_map.1 hst
      exact ⟨hvis, fun o ho => hrec o (hoff (ReplaceNet.mem_of_mem_streams hp ho))⟩

theorem Inv.finish (h : x.Inv hash starts key val) (hc : x.copier.step (.finish k) = some c) :
    ({ x with copier := c, jobs := x.jobs.eraseIdx k } : ServerNode).Inv hash starts key val := by
  have hinv := (Copier.step_inv (a := .finish k) h.counts trivial hc).1
  obtain ⟨task, htask, rfl⟩ := Option.map_eq_some_iff.1 hc
  obtain ⟨state, sent, he, -⟩ := Copier.replaceOfferPop_eq
    { x.copier with tasks := x.copier.tasks.eraseIdx k } task.replaceTime
  rw [he] at hinv ⊢
  exact ⟨hinv, Paired.eraseIdx h.fits k, fun job hj => h.spaces job (List.mem_of_mem_eraseIdx hj),
    h.times, fun job hj => h.records job (List.mem_of_mem_eraseIdx hj), h.streams, h.popping,
    h.holds⟩

theorem Inv.pop (h : x.Inv hash starts key val) (hc : x.copier.step (.pop k) = some c) :
    ({ x with copier := c } : ServerNode).Inv hash starts key val := by
  have hinv := (Copier.step_inv (a := .pop k) h.counts trivial hc).1
  obtain ⟨t, -, rfl⟩ := Option.map_eq_some_iff.1 hc
  obtain ⟨state, sent, he, -⟩ := Copier.replaceOfferPop_eq
    { x.copier with popping := x.copier.popping.eraseIdx k } t
  rw [he] at hinv ⊢
  exact { h with
    counts := hinv
    popping := fun u hu => h.popping u (List.mem_of_mem_eraseIdx hu) }

theorem Inv.accept (h : x.Inv hash starts key val) {a : Address}
    (hc : x.copier.step (.accept a) = some c) :
    ({ x with copier := c } : ServerNode).Inv hash starts key val := by
  have hinv := (Copier.step_inv (a := .accept a) h.counts trivial hc).1
  obtain ⟨st, hst, rfl⟩ := Option.map_eq_some_iff.1 hc
  have hmem := h.counts.offered.subset (List.mem_of_find?_eq_some hst)
  refine { h with
    counts := hinv
    streams := fun st' hst' => h.streams st' (List.mem_of_mem_erase hst')
    popping := fun u hu => ?_ }
  rcases List.mem_append.1 hu with hu | hu
  · exact h.popping u hu
  · rw [List.mem_singleton.1 hu]
    exact (h.streams st hmem).1

theorem Inv.timeout (h : x.Inv hash starts key val) {a : Address}
    (hc : x.copier.step (.timeout a) = some c) :
    ({ x with copier := c } : ServerNode).Inv hash starts key val := by
  have hinv := (Copier.step_inv (a := .timeout a) h.counts trivial hc).1
  obtain ⟨st, -, rfl⟩ := Option.map_eq_some_iff.1 hc
  exact { h with counts := hinv }

end Job

/-! ## Reports -/

/-- A step of the copier that sends `ReplaceCopyEnd` is the last for its time, and the database is
passed for that time. -/
theorem Inv.reports (h : x.Inv hash starts key val) {a : Copier.Act (List Offer)}
    (hg : Copier.BeginsQuiet x.copier a) (hc : x.copier.step a = some c) {u : Address × ClockTime}
    (hu : u ∈ c.sent.take (c.sent.length - x.copier.sent.length)) :
    u.2 ∈ x.visited ∧ c.Quiet u.2 := by
  have sends : ∀ {t}, t ∈ x.visited → (c.sent = x.copier.sent ∨ ∃ m, c.sent =
      (m, t) :: x.copier.sent) → u.2 ∈ x.visited ∧ c.Quiet u.2 := by
    rintro t ht (hs | ⟨m, hs⟩)
    · simp [hs] at hu
    · have hu' : u = (m, t) := by simpa [hs] using hu
      rw [hu']
      exact ⟨ht, (Copier.step_inv h.counts hg hc).2 m t hs⟩
  have silent : c.sent = x.copier.sent → u.2 ∈ x.visited ∧ c.Quiet u.2 := fun hs => by
    simp [hs] at hu
  cases a with
  | submit => cases hc; exact silent rfl
  | begin | offer | scanEnd | skip | accept | timeout =>
    obtain ⟨_, -, rfl⟩ := Option.map_eq_some_iff.1 hc
    exact silent rfl
  | resume k =>
    obtain ⟨task, -, hc⟩ := Option.bind_eq_some_iff.1 hc
    split_ifs at hc
    cases hc
    exact silent rfl
  | finish k =>
    obtain ⟨task, htask, rfl⟩ := Option.map_eq_some_iff.1 hc
    obtain ⟨state, sent, he, hs⟩ := Copier.replaceOfferPop_eq
      { x.copier with tasks := x.copier.tasks.eraseIdx k } task.replaceTime
    obtain ⟨hk, hp⟩ := Copier.taskIn_eq htask
    obtain ⟨job, -, hf⟩ := Paired.mem_left h.fits (List.mem_of_getElem? hk)
    refine sends (hf.passed (.inr (.inr hp))) ?_
    rw [he]
    exact hs
  | pop k =>
    obtain ⟨t, ht, rfl⟩ := Option.map_eq_some_iff.1 hc
    obtain ⟨state, sent, he, hs⟩ := Copier.replaceOfferPop_eq
      { x.copier with popping := x.copier.popping.eraseIdx k } t
    refine sends (h.popping t (List.mem_of_getElem? ht)) ?_
    rw [he]
    exact hs

end ServerNode

end Kumofs
