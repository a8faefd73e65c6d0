import Kumofs.Proofs.Rehash
import Kumofs.Proofs.Replace
import Kumofs.Proofs.Ring
import Kumofs.System.Lookups

/-!
# Lookups on an empty ring

`empty()` tells whether a node is active, so a hash space that is not empty has virtual nodes. The
checks of a request, `calc_replicators`, `replace_copy` and `replace_delete` all ask it before they
look up a hash; `full_replace_copy` does not, and a hash space without nodes comes to it as any
other does.
-/

namespace Kumofs

namespace HashSpace

variable {hash : Bytes → UInt64} {hs : HashSpace}

theorem nodes_ne_nil_of_not_empty (h : ¬ hs.empty = true) : hs.nodes ≠ [] := by
  intro hn
  exact h (empty_iff.2 (by simp [hn]))

/-- Every node has virtual nodes. -/
theorem ring_ne_nil_iff (hr : hs.hashspace = rehash hash hs.nodes) :
    hs.hashspace ≠ [] ↔ hs.nodes ≠ [] := by
  constructor
  · intro h hn
    rw [hr, hn] at h
    exact h rfl
  · intro hn
    rw [hr]
    exact hashspace_ne_nil (s := hs.seed) hash hn

theorem ring_ne_nil (hr : hs.hashspace = rehash hash hs.nodes)
    (h : ¬ hs.empty = true) : hs.hashspace ≠ [] :=
  (ring_ne_nil_iff hr).2 (nodes_ne_nil_of_not_empty h)

theorem not_empty_of_getActiveNodes (h : hs.getActiveNodes ≠ []) : ¬ hs.empty = true := by
  obtain ⟨a, ha⟩ := List.exists_mem_of_ne_nil _ h
  simp [Server.not_empty_of_mem ha]

end HashSpace

namespace Server

variable {hash : Bytes → UInt64} {self : Address} {whs rhs hs : HashSpace} {h : UInt64}

namespace Walked

/-! ## The same values -/

theorem value_checkReplicatorAssign :
    (checkReplicatorAssign self hs h).value = Server.checkReplicatorAssign self hs h := by
  unfold checkReplicatorAssign Server.checkReplicatorAssign
  split_ifs with he hany
  · rfl
  · simp [bind, eachAssign, pure, hany]
  · simp [bind, eachAssign, pure, hany]

theorem value_checkCoordinatorAssign :
    (checkCoordinatorAssign self hs h).value = Server.checkCoordinatorAssign self hs h := by
  unfold checkCoordinatorAssign Server.checkCoordinatorAssign
  split_ifs
  · rfl
  · rfl

theorem value_calcReplicators :
    (calcReplicators self whs rhs h).value = Server.calcReplicators self whs rhs h := by
  unfold calcReplicators Server.calcReplicators
  simp only [bind, value_checkCoordinatorAssign]
  cases Server.checkCoordinatorAssign self whs h with
  | error e => rfl
  | ok _ =>
    simp only []
    split_ifs
    · rfl
    · rfl
    · rfl

theorem value_testReplicatorAssign :
    (testReplicatorAssign self hs h).value = Server.testReplicatorAssign hs h self := rfl

end Walked

theorem value_visit_replaceCopy {src dst : HashSpace} :
    ((Scan.replaceCopy src dst).visit self h).value =
      (copyTargets self src dst (faultNodes src dst) h, false) := rfl

theorem value_visit_fullReplaceCopy {dst : HashSpace} :
    ((Scan.fullReplaceCopy dst).visit self h).value = (dst.activeAssigned h, false) := rfl

theorem value_visit_replaceDelete :
    ((Scan.replaceDelete hs).visit self h).value =
      ([], !Server.testReplicatorAssign hs h self) := rfl

/-! ## Where they look up -/

/-- Every lookup is in a ring with a virtual node. -/
def Walked.Ringed {α : Type} (x : Walked α) : Prop := ∀ hs ∈ x.walks, hs.hashspace ≠ []

namespace Walked

variable {α β : Type}

theorem ringed_pure {a : α} : (pure a).Ringed := by
  intro hs hmem
  simp [pure] at hmem

theorem ringed_eachAssign : (eachAssign hs h).Ringed ↔ hs.hashspace ≠ [] := by
  simp [Ringed, eachAssign]

theorem ringed_bind {x : Walked α} {f : α → Walked β} (hx : x.Ringed)
    (hf : (f x.value).Ringed) : (x.bind f).Ringed := by
  intro hs hmem
  rcases List.mem_append.1 hmem with hmem | hmem
  · exact hx hs hmem
  · exact hf hs hmem

theorem ringed_checkReplicatorAssign (hr : hs.hashspace = HashSpace.rehash hash hs.nodes) :
    (checkReplicatorAssign self hs h).Ringed := by
  unfold checkReplicatorAssign
  split_ifs with he
  · exact ringed_pure
  · exact ringed_bind (ringed_eachAssign.2 (HashSpace.ring_ne_nil hr he))
      ringed_pure

theorem ringed_checkCoordinatorAssign (hr : hs.hashspace = HashSpace.rehash hash hs.nodes) :
    (checkCoordinatorAssign self hs h).Ringed := by
  unfold checkCoordinatorAssign
  split_ifs with he
  · exact ringed_pure
  · exact ringed_bind (ringed_eachAssign.2 (HashSpace.ring_ne_nil hr he))
      ringed_pure

/-- The check of the coordinator is what guards the lookups in `whs`. -/
theorem ringed_calcReplicators (hw : whs.hashspace = HashSpace.rehash hash whs.nodes)
    (hr : rhs.hashspace = HashSpace.rehash hash rhs.nodes) :
    (calcReplicators self whs rhs h).Ringed := by
  refine ringed_bind (ringed_checkCoordinatorAssign hw) ?_
  rw [value_checkCoordinatorAssign]
  cases hc : Server.checkCoordinatorAssign self whs h with
  | error e => exact ringed_pure
  | ok _ =>
    have he : ¬ whs.empty = true := fun he => by
      simp [Server.checkCoordinatorAssign, he] at hc
    have hwrepto : (assignedActiveExcludeOne whs h self).Ringed :=
      ringed_bind (ringed_eachAssign.2 (HashSpace.ring_ne_nil hw he)) ringed_pure
    simp only []
    split_ifs with hct hre
    · exact ringed_bind hwrepto ringed_pure
    · exact ringed_pure
    · refine ringed_bind hwrepto (ringed_bind (ringed_bind (ringed_eachAssign.2 ?_) ringed_pure)
        ringed_pure)
      exact HashSpace.ring_ne_nil hr hre

end Walked

/-- What a scan begins with: `replace_copy` and `replace_delete` have looked for active nodes. -/
def Scan.Begun (hash : Bytes → UInt64) : Scan → Prop
  | .replaceCopy src dst => src.hashspace ≠ [] ∧ dst.hashspace ≠ []
  | .fullReplaceCopy dst => dst.hashspace = HashSpace.rehash hash dst.nodes
  | .replaceDelete hs => hs.hashspace ≠ []

/-- The ring of the hash space of a task is that of its nodes. -/
def Task.Follows (hash : Bytes → UInt64) : Task → Prop
  | .replaceCopy hs => hs.hashspace = HashSpace.rehash hash hs.nodes
  | .fullReplaceCopy hs => hs.hashspace = HashSpace.rehash hash hs.nodes
  | .replaceDelete hs => hs.hashspace = HashSpace.rehash hash hs.nodes

theorem begun_of_beginScan {st : State} {task : Task} {scan : Scan}
    (hw : st.whs.hashspace = HashSpace.rehash hash st.whs.nodes)
    (hr : st.rhs.hashspace = HashSpace.rehash hash st.rhs.nodes) (ht : task.Follows hash)
    (hb : beginScan self st task = some scan) : scan.Begun hash := by
  cases task with
  | replaceCopy dst =>
    simp only [beginScan] at hb
    split_ifs at hb with hskip
    simp only [Option.some.injEq] at hb
    subst hb
    simp only [skipsReplace, Bool.or_eq_true, List.isEmpty_iff, decide_eq_true_eq, not_or] at hskip
    exact ⟨HashSpace.ring_ne_nil hr
        (HashSpace.not_empty_of_getActiveNodes hskip.1.1),
      HashSpace.ring_ne_nil ht
        (HashSpace.not_empty_of_getActiveNodes hskip.1.2)⟩
  | fullReplaceCopy dst =>
    cases hb
    exact ht
  | replaceDelete _ =>
    simp only [beginScan] at hb
    split_ifs at hb with he
    simp only [Option.some.injEq] at hb
    subst hb
    exact HashSpace.ring_ne_nil hw he

/-- Only the visit of a full copy looks up where there may be no node. -/
theorem ringed_visit_iff {scan : Scan} (hb : scan.Begun hash) :
    (scan.visit self h).Ringed ↔ ∀ dst, scan = .fullReplaceCopy dst → dst.nodes ≠ [] := by
  cases scan with
  | replaceCopy src dst =>
    refine ⟨by simp, fun _ => ?_⟩
    exact Walked.ringed_bind (Walked.ringed_bind (Walked.ringed_eachAssign.2 hb.1)
      Walked.ringed_pure) (Walked.ringed_bind (Walked.ringed_bind
        (Walked.ringed_eachAssign.2 hb.2) Walked.ringed_pure) Walked.ringed_pure)
  | fullReplaceCopy dst =>
    have hne : dst.hashspace ≠ [] ↔ dst.nodes ≠ [] := HashSpace.ring_ne_nil_iff hb
    simpa [Walked.Ringed, Scan.visit, Scan.actives, Walked.bind, Walked.eachAssign, Walked.pure]
      using hne
  | replaceDelete hs =>
    refine ⟨by simp, fun _ => ?_⟩
    exact Walked.ringed_bind (Walked.ringed_bind (Walked.ringed_eachAssign.2 hb)
      Walked.ringed_pure) Walked.ringed_pure

end Server

namespace Lookups

open Server Machine

variable {hash : Bytes → UInt64} {self : Address} {s t : Lookups} {a : Act}

/-- No full copy comes to a record with a hash space without nodes. -/
def VisitsNodes (s : Lookups) (a : Act) : Prop :=
  ∀ i kv dst, a = .visit i kv → s.scans[i]? = some (.fullReplaceCopy dst) → dst.nodes ≠ []

/-- The hash spaces of a server are rings of their nodes, and those of its scans are what the scans
have begun with. -/
structure Sound (hash : Bytes → UInt64) (s : Lookups) : Prop where
  whs : s.spaces.server.whs.hashspace = HashSpace.rehash hash s.spaces.server.whs.nodes
  rhs : s.spaces.server.rhs.hashspace = HashSpace.rehash hash s.spaces.server.rhs.nodes
  tasks : ∀ task ∈ s.spaces.tasks, task.Follows hash
  scans : ∀ scan ∈ s.scans, scan.Begun hash

/-- Every lookup so far was in a ring with a virtual node. -/
def Ringed (s : Lookups) : Prop := ∀ hs ∈ s.walks, hs.hashspace ≠ []

theorem sound_start {storage : Storage} {clock : ClockLogic} :
    Sound hash (start storage clock) :=
  ⟨rfl, rfl, by simp [start], by simp [start]⟩

theorem renew_follows {hs : HashSpace} {x : Seed}
    (h : hs.hashspace = HashSpace.rehash hash hs.nodes) :
    (renew hash hs x).hashspace = HashSpace.rehash hash (renew hash hs x).nodes := by
  unfold renew
  split_ifs
  · rfl
  · exact h

/-- The messages and the tasks keep the rings. -/
theorem sound_spaces {b : Spaces.Act} {u : Spaces} (hs : Sound hash s)
    (h : s.spaces.step hash b = some u) :
    u.server.whs.hashspace = HashSpace.rehash hash u.server.whs.nodes ∧
      u.server.rhs.hashspace = HashSpace.rehash hash u.server.rhs.nodes ∧
      ∀ task ∈ u.tasks, task.Follows hash := by
  have hadd : ∀ {task' : Task}, task'.Follows hash →
      ∀ task ∈ s.spaces.tasks ++ [task'], task.Follows hash := fun ht task hmem => by
    rcases List.mem_append.1 hmem with hmem | hmem
    · exact hs.tasks task hmem
    · rw [List.mem_singleton.1 hmem]
      exact ht
  cases b with
  | hashSpaceSync wseed rseed adjustClock =>
    cases h
    refine ⟨?_, ?_, hs.tasks⟩
    · simp only [hashSpaceSync]
      split_ifs
      · rfl
      · exact hs.whs
    · simp only [hashSpaceSync]
      split_ifs
      · rfl
      · exact hs.rhs
  | resWHashSpaceRequest hsseed =>
    cases h
    exact ⟨renew_follows hs.whs, hs.rhs, hs.tasks⟩
  | resRHashSpaceRequest hsseed =>
    cases h
    exact ⟨hs.whs, renew_follows hs.rhs, hs.tasks⟩
  | replaceCopyStart hsseed adjustClock full =>
    cases h
    refine ⟨hs.whs, hs.rhs, hadd ?_⟩
    cases full with
    | false => exact rfl
    | true => exact rfl
  | replaceDeleteStart hsseed adjustClock =>
    cases h
    refine ⟨hs.whs, hs.rhs, hadd ?_⟩
    exact rfl
  | run k =>
    obtain ⟨task, hk, rfl⟩ := Option.map_eq_some_iff.1 h
    have ht : task.Follows hash := hs.tasks task (List.mem_of_getElem? hk)
    have hrest : ∀ x ∈ s.spaces.tasks.eraseIdx k, x.Follows hash :=
      fun x hx => hs.tasks x (List.mem_of_mem_eraseIdx hx)
    cases task with
    | replaceCopy hs' => exact ⟨ht, hs.rhs, hrest⟩
    | fullReplaceCopy hs' => exact ⟨hs.whs, hs.rhs, hrest⟩
    | replaceDelete hs' => exact ⟨hs.whs, hs.whs, hrest⟩

theorem begun_begins {b : Spaces.Act} (hs : Sound hash s) :
    ∀ scan ∈ s.begins self b, scan.Begun hash := by
  intro scan hmem
  cases b with
  | run k =>
    simp only [begins, Option.mem_toList, Option.bind_eq_some_iff] at hmem
    obtain ⟨task, hk, hb⟩ := hmem
    exact begun_of_beginScan hs.whs hs.rhs (hs.tasks task (List.mem_of_getElem? hk)) hb
  | _ => simp [begins] at hmem

theorem Sound.look {α : Type} {x : Walked α} (hs : Sound hash s) : Sound hash (s.look x) :=
  ⟨hs.whs, hs.rhs, hs.tasks, hs.scans⟩

theorem Sound.setStorage {st : Storage} (hs : Sound hash s) : Sound hash (s.setStorage st) :=
  ⟨hs.whs, hs.rhs, hs.tasks, hs.scans⟩

theorem ringed_look {α : Type} {x : Walked α} : (s.look x).Ringed ↔ s.Ringed ∧ x.Ringed := by
  simp only [Ringed, Lookups.look, List.mem_append, Walked.Ringed, or_imp, forall_and]

/-- What a visit does: it looks up, and a delete takes the record away. -/
theorem step_visit {i : ℕ} {kv : Bytes × Bytes} (h : step hash self s (.visit i kv) = some t) :
    ∃ scan st, s.scans[i]? = some scan ∧
      (t = s.look (scan.visit self (Storage.hashOf kv.1)) ∨
        t = (s.look (scan.visit self (Storage.hashOf kv.1))).setStorage st) := by
  obtain ⟨scan, hi, h⟩ := Option.bind_eq_some_iff.1 h
  simp only [] at h
  split_ifs at h with hl hd
  · simp only [Option.some.injEq] at h
    exact ⟨scan, _, hi, .inr h.symm⟩
  · simp only [Option.some.injEq] at h
    exact ⟨scan, s.spaces.server.storage, hi, .inl h.symm⟩

theorem sound_step (hs : Sound hash s) (h : step hash self s a = some t) : Sound hash t := by
  cases a with
  | spaces b =>
    obtain ⟨u, hu, rfl⟩ := Option.map_eq_some_iff.1 h
    obtain ⟨hw, hr, ht⟩ := sound_spaces hs hu
    refine ⟨hw, hr, ht, fun scan hmem => ?_⟩
    rcases List.mem_append.1 hmem with hmem | hmem
    · exact hs.scans scan hmem
    · exact begun_begins hs scan hmem
  | get key | write key | replicate key byRhs =>
    cases h
    exact hs.look
  | storage op =>
    cases h
    exact hs.setStorage
  | visit i kv =>
    obtain ⟨scan, st, -, rfl | rfl⟩ := step_visit h
    · exact hs.look
    · exact hs.look.setStorage
  | finish i =>
    simp only [step] at h
    split_ifs at h
    simp only [Option.some.injEq] at h
    subst h
    exact ⟨hs.whs, hs.rhs, hs.tasks, fun scan hmem => hs.scans scan (List.mem_of_mem_eraseIdx hmem)⟩

/-- A step looks up in a ring without virtual nodes only by the visit of a full copy that has no
nodes. -/
theorem ringed_step (hs : Sound hash s) (h : step hash self s a = some t) :
    t.Ringed ↔ s.Ringed ∧ VisitsNodes s a := by
  have hother : (∀ i kv, a ≠ .visit i kv) → VisitsNodes s a :=
    fun hne i kv _ ha => absurd ha (hne i kv)
  cases a with
  | spaces b =>
    obtain ⟨u, hu, rfl⟩ := Option.map_eq_some_iff.1 h
    exact ⟨fun ht => ⟨ht, hother (by simp)⟩, fun ht => ht.1⟩
  | get key =>
    cases h
    rw [ringed_look, iff_true_intro (Walked.ringed_checkReplicatorAssign hs.rhs),
      iff_true_intro (hother (by simp))]
  | write key =>
    cases h
    rw [ringed_look, iff_true_intro (Walked.ringed_calcReplicators hs.whs hs.rhs),
      iff_true_intro (hother (by simp))]
  | replicate key byRhs =>
    cases h
    have hx : (Walked.checkReplicatorAssign self
        (if byRhs then s.spaces.server.rhs else s.spaces.server.whs) key.hash).Ringed := by
      split_ifs
      · exact Walked.ringed_checkReplicatorAssign hs.rhs
      · exact Walked.ringed_checkReplicatorAssign hs.whs
    rw [ringed_look, iff_true_intro hx, iff_true_intro (hother (by simp))]
  | storage op =>
    cases h
    exact ⟨fun ht => ⟨ht, hother (by simp)⟩, fun ht => ht.1⟩
  | visit i kv =>
    obtain ⟨scan, st, hi, ht⟩ := step_visit h
    have hring : t.Ringed ↔ (s.look (scan.visit self (Storage.hashOf kv.1))).Ringed := by
      rcases ht with rfl | rfl
      · exact Iff.rfl
      · exact Iff.rfl
    have hvisits : VisitsNodes s (.visit i kv) ↔
        ∀ dst, scan = .fullReplaceCopy dst → dst.nodes ≠ [] := by
      constructor
      · rintro hv dst rfl
        exact hv i kv dst rfl hi
      · rintro hv j kv' dst hj hdst
        cases hj
        rw [hi, Option.some.injEq] at hdst
        exact hv dst hdst
    rw [hring, ringed_look, hvisits,
      ringed_visit_iff (hs.scans scan (List.mem_of_getElem? hi))]
  | finish i =>
    simp only [step] at h
    split_ifs at h
    simp only [Option.some.injEq] at h
    subst h
    exact ⟨fun ht => ⟨ht, hother (by simp)⟩, fun ht => ht.1⟩

/-- From the start of a server and in any order, every lookup is in a ring with a virtual node if
and only if no full copy comes to a record with a hash space without nodes. -/
theorem ringed_iff {storage : Storage} {clock : ClockLogic} {as : List Act}
    (h : Run (step hash self) Free (start storage clock) as t) :
    t.Ringed ↔ Run (step hash self) VisitsNodes (start storage clock) as t := by
  have hj := h.guard_iff (fun s a t => sound_step) (fun s a t => ringed_step) sound_start
  have hstart : (start storage clock).Ringed := by simp [Ringed, start]
  rw [hj, iff_true_intro hstart, true_and]

/-! A full replace that is ordered before any server is attached. -/

section Sample

open Sample

/-- A manager to which a server has connected. -/
def connected : Manager := (Manager.init (mgr 1) (mgr 2) ⟨1, 1000⟩ false).addServer (svr 1)

/-- A database with one record. -/
def oneRecord : Storage := ⟨(∅ : Db).insert entryKey entryVal, [], 0, 100, 1000⟩

/-- The actions of that server. -/
def fullCopyRun : List Act :=
  [.spaces (.replaceCopyStart connected.whs.seed 1 true), .spaces (.run 0),
    .visit 0 (entryKey, entryVal)]

theorem not_ringed_fullCopy :
    .servers [svr 1] (.replaceCopyStart connected.whs.seed 1 true) ∈
        (connected.startReplace true).2 ∧
      ∃ t, Run (step zeroHash (svr 1)) Free (start oneRecord ⟨1, 1000⟩) fullCopyRun t ∧
        ¬ t.Ringed := by
  refine ⟨by decide, _, exec_run rfl, fun h => ?_⟩
  exact h .init (by decide) rfl

/-- The same with the server attached, and a key that is written. -/
def attachedRun : List Act :=
  [.spaces (.replaceCopyStart oneSeed 1 true), .spaces (.run 0), .visit 0 (entryKey, entryVal),
    .write ⟨entryKey, meta_le_entryKey⟩]

theorem attachedRun_visits : ∃ t,
    Run (step zeroHash (svr 1)) VisitsNodes (start oneRecord ⟨1, 1000⟩) attachedRun t ∧
      t.walks ≠ [] := by
  refine ⟨_, .cons ?_ rfl (.cons ?_ rfl (.cons ?_ rfl (.cons ?_ rfl (.nil _)))),
    List.cons_ne_nil _ _⟩
  all_goals
    rintro i kv dst ha hscan
    cases ha
  -- the scan is that of the seed
  cases hscan
  exact List.cons_ne_nil _ _

theorem ringed_iff_attached : ∃ t,
    Run (step zeroHash (svr 1)) Free (start oneRecord ⟨1, 1000⟩) attachedRun t ∧
      t.walks ≠ [] ∧ t.Ringed := by
  obtain ⟨t, hrun, hwalks⟩ := attachedRun_visits
  have hfree := hrun.mono (Q := Free) fun _ _ _ => trivial
  exact ⟨t, hfree, hwalks, (ringed_iff hfree).2 hrun⟩

end Sample

end Lookups

end Kumofs
