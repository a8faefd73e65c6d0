import Kumofs.Proofs.Hash
import Kumofs.Proofs.Storage
import Kumofs.Sample
import Kumofs.System.Replace

/-!
# A replace without failures moves every entry

Each server decides alone whom it offers a record. The first of the nodes that had it and stay
offers it to all that are to have it and did not; the others that are to have it have it already.
The deletes then leave exactly those.
-/

namespace Kumofs

namespace Server

variable {src dst : HashSpace} {h : UInt64} {a self : Address}

theorem testReplicatorAssign_iff : testReplicatorAssign dst h a = true ↔
    a ∈ dst.activeAssigned h := by
  simp [testReplicatorAssign, HashSpace.mem_activeAssigned]

theorem mem_faultNodes : a ∈ faultNodes src dst ↔
    a ∈ src.getActiveNodes ∧ a ∉ dst.getActiveNodes := by
  simp [faultNodes]

theorem mem_newbies : a ∈ newbies src dst h ↔
    a ∈ dst.activeAssigned h ∧ a ∉ src.activeAssigned h := by
  simp [newbies]

theorem mem_currentOwners {faults : List Address} : a ∈ currentOwners src faults h ↔
    a ∈ src.activeAssigned h ∧ a ∉ faults := by
  simp [currentOwners]

theorem mem_copyTargets {faults : List Address} : a ∈ copyTargets self src dst faults h ↔
    (currentOwners src faults h).head? = some self ∧ a ∈ newbies src dst h := by
  unfold copyTargets
  split_ifs with hs
  · simp [hs]
  · simp [hs]

theorem mem_forEachReplaceCopy {faults : List Address} {records : List (Bytes × Bytes)}
    {o : Offer} : o ∈ forEachReplaceCopy self src dst faults records ↔
      (o.key, o.val) ∈ records ∧
        o.dest ∈ copyTargets self src dst faults (Storage.hashOf o.key) := by
  unfold forEachReplaceCopy
  simp only [List.mem_flatMap, List.mem_map]
  constructor
  · rintro ⟨⟨k, v⟩, hkv, b, hb, rfl⟩
    exact ⟨hkv, hb⟩
  · rintro ⟨hkv, hb⟩
    exact ⟨_, hkv, _, hb, rfl⟩

/-- An owner that stays is active in the new hash space. -/
theorem active_of_mem_currentOwners {hash : Bytes → UInt64} {ss ds : Seed}
    (ha : a ∈ currentOwners (.ofSeed hash ss)
      (faultNodes (.ofSeed hash ss) (.ofSeed hash ds)) h) :
    a ∈ (HashSpace.ofSeed hash ds).getActiveNodes := by
  obtain ⟨hs, hf⟩ := mem_currentOwners.1 ha
  by_contra hd
  exact hf (mem_faultNodes.2 ⟨HashSpace.mem_getActiveNodes_of_activeAssigned hs, hd⟩)

theorem not_empty_of_mem (ha : a ∈ dst.getActiveNodes) : dst.empty = false := by
  by_contra he
  have := HashSpace.empty_iff.1 (Bool.eq_true_of_not_eq_false he) _
    (HashSpace.mem_getActiveNodes.1 ha)
  cases this

theorem skipsReplace_eq_false (hs : src.getActiveNodes ≠ []) (ha : a ∈ dst.getActiveNodes) :
    skipsReplace a src dst = false := by
  have hd : dst.getActiveNodes ≠ [] := List.ne_nil_of_mem ha
  simp [skipsReplace, hs, hd, mem_faultNodes, ha]

section Lookup

variable {key val : Bytes} {now : ClockTime} {s : Storage}

theorem lookup_submitMessage {o : Offer} (hk : o.key ≠ key) :
    (submitMessage s o).db.lookup key = s.db.lookup key := Db.lookup_update_ne hk.symm

/-- Applying a record where there is no other version of it leaves that record. -/
theorem lookup_submitMessage_self {o : Offer}
    (hs : s.db.lookup o.key = none ∨ s.db.lookup o.key = some o.val) :
    (submitMessage s o).db.lookup o.key = some o.val := by
  unfold submitMessage Storage.update
  simp only [Db.lookup_update]
  rcases hs with hs | hs
  · simp [hs]
  · rw [hs]
    split_ifs
    · rfl
    · rfl

theorem lookup_replaceDelete {hs : HashSpace} (he : hs.empty = false)
    (hv : ∀ v, s.db.lookup key = some v → valueMetaSize ≤ v.length) :
    (replaceDelete a hs now s).db.lookup key =
      if testReplicatorAssign hs (Storage.hashOf key) a then s.db.lookup key else none := by
  have hsweep : (s.sweep now).db.lookup key = s.db.lookup key := by
    cases hl : s.db.lookup key with
    | none => rw [Storage.lookup_sweep, hl]; rfl
    | some v => exact Storage.lookup_sweep_live hl (hv v hl)
  unfold replaceDelete
  rw [if_neg (by simp [he])]
  simp only []
  rw [Db.lookup_foldl_erase (fun kv : Bytes × Bytes => kv.1), hsweep]
  have hmem : key ∈ (s.live.filter fun kv =>
      !testReplicatorAssign hs (Storage.hashOf kv.1) a).map (·.1) ↔
      testReplicatorAssign hs (Storage.hashOf key) a = false ∧ ∃ v, s.db.lookup key = some v := by
    simp only [List.mem_map, List.mem_filter]
    constructor
    · rintro ⟨⟨k, v⟩, ⟨hl, ht⟩, rfl⟩
      exact ⟨by simpa using ht, v, (Storage.mem_live.1 hl).1⟩
    · rintro ⟨ht, v, hl⟩
      exact ⟨(key, v), ⟨Storage.mem_live.2 ⟨hl, hv v hl⟩, by simpa using ht⟩, rfl⟩
  by_cases ht : testReplicatorAssign hs (Storage.hashOf key) a = true
  · rw [if_pos ht, if_neg fun hk => by simpa [ht] using (hmem.1 hk).1]
  · rw [if_neg ht]
    split_ifs with hk
    · rfl
    · cases hl : s.db.lookup key with
      | none => rfl
      | some v => exact absurd (hmem.2 ⟨Bool.eq_false_of_not_eq_true ht, v, hl⟩) hk

end Lookup

end Server

namespace Replacing

open Server

variable {src dst : HashSpace} {key val : Bytes} {s t : Replacing}

/-- The value a server holds for a key. -/
def holds (s : Replacing) (key : Bytes) (a : Address) : Option Bytes := (s.store a).db.lookup key

/-- The owners of a key that stay, the first of which offers its record. -/
def owners (src dst : HashSpace) (key : Bytes) : List Address :=
  currentOwners src (faultNodes src dst) (Storage.hashOf key)

structure Moves (src dst : HashSpace) (key val : Bytes) (s : Replacing) : Prop where
  version : ∀ a, s.holds key a = none ∨ s.holds key a = some val
  keeps : ∀ a ∈ owners src dst key, (a ∈ s.deleted → a ∈ dst.activeAssigned (Storage.hashOf key)) →
    s.holds key a = some val
  dropped : ∀ a ∈ s.deleted, a ∉ dst.activeAssigned (Storage.hashOf key) → s.holds key a = none
  offers : ∀ x ∈ s.offered, x.2.key = key → (owners src dst key).head? = some x.1 ∧
    x.2.val = val ∧ x.2.dest ∈ newbies src dst (Storage.hashOf key)
  pend : ∀ x ∈ s.pending, x ∈ s.offered
  copied : ∀ f, (owners src dst key).head? = some f → f ∈ s.scanned →
    ∀ a ∈ newbies src dst (Storage.hashOf key), (f, ⟨a, key, val⟩) ∈ s.offered ∧
      ((f, ⟨a, key, val⟩) ∈ s.pending ∨ s.holds key a = some val)
  phase : s.deleted ≠ [] → s.Copied dst

theorem holds_update {n a : Address} {x : Storage} :
    ({ s with store := Function.update s.store n x } : Replacing).holds key a =
      if a = n then x.db.lookup key else s.holds key a := by
  unfold holds
  by_cases ha : a = n
  · subst ha
    simp
  · simp [ha]

/-- A scan does not change what a server holds, and offers what it has to. -/
theorem replaceCopy_spec (now : ClockTime) (hv : valueMetaSize ≤ val.length)
    (hs : src.getActiveNodes ≠ []) {n : Address} (hn : n ∈ dst.getActiveNodes) {st : Storage}
    (hver : st.db.lookup key = none ∨ st.db.lookup key = some val) :
    (replaceCopy n src dst now st).1.db.lookup key = st.db.lookup key ∧
      ∀ o ∈ (replaceCopy n src dst now st).2, o.key = key →
        (owners src dst key).head? = some n ∧ o.val = val ∧
          o.dest ∈ newbies src dst (Storage.hashOf key) := by
  unfold replaceCopy
  rw [skipsReplace_eq_false hs hn]
  simp only [Bool.false_eq_true, if_false]
  constructor
  · rcases hver with hl | hl
    · rw [Storage.lookup_sweep, hl]
      rfl
    · rw [Storage.lookup_sweep_live hl hv, hl]
  · rintro o ho rfl
    obtain ⟨hlive, hd⟩ := mem_forEachReplaceCopy.1 ho
    obtain ⟨hl, -⟩ := Storage.mem_live.1 hlive
    obtain ⟨hf, hd⟩ := mem_copyTargets.1 hd
    refine ⟨hf, ?_, hd⟩
    rcases hver with h0 | h0
    · rw [h0] at hl
      cases hl
    · rw [h0] at hl
      exact (Option.some.inj hl).symm

theorem mem_replaceCopy (now : ClockTime) (hv : valueMetaSize ≤ val.length)
    (hs : src.getActiveNodes ≠ []) {f a : Address} (hf : f ∈ dst.getActiveNodes) {st : Storage}
    (hl : st.db.lookup key = some val) (hh : (owners src dst key).head? = some f)
    (ha : a ∈ newbies src dst (Storage.hashOf key)) :
    ⟨a, key, val⟩ ∈ (replaceCopy f src dst now st).2 := by
  unfold replaceCopy
  rw [skipsReplace_eq_false hs hf]
  exact mem_forEachReplaceCopy.2 ⟨Storage.mem_live.2 ⟨hl, hv⟩, mem_copyTargets.2 ⟨hh, ha⟩⟩

theorem scan_moves (hv : valueMetaSize ≤ val.length) (hs : src.getActiveNodes ≠ [])
    (h : s.Moves src dst key val) {n : Address} {now : ClockTime} (hn : n ∈ dst.getActiveNodes)
    (hd : s.deleted = []) :
    ({ s with
      store := Function.update s.store n (replaceCopy n src dst now (s.store n)).1
      scanned := n :: s.scanned
      pending := s.pending ++ (replaceCopy n src dst now (s.store n)).2.map (n, ·)
      offered := s.offered ++ (replaceCopy n src dst now (s.store n)).2.map (n, ·) } :
      Replacing).Moves src dst key val := by
  obtain ⟨hlook, hoff⟩ := replaceCopy_spec now hv hs hn (h.version n)
  have hholds : ∀ a, ({ s with
      store := Function.update s.store n (replaceCopy n src dst now (s.store n)).1 } :
      Replacing).holds key a = s.holds key a := by
    intro a
    rw [holds_update]
    split_ifs with ha
    · rw [hlook, ha]
      rfl
    · rfl
  refine ⟨fun a => hholds a ▸ h.version a, fun a ha hda => (hholds a).trans (h.keeps a ha hda),
    fun a ha hda => (hholds a).trans (h.dropped a ha hda), ?_, ?_, ?_, fun hne => absurd hd hne⟩
  · intro x hx hk
    rcases List.mem_append.1 hx with hx | hx
    · exact h.offers x hx hk
    · obtain ⟨o, ho, rfl⟩ := List.mem_map.1 hx
      exact hoff o ho hk
  · intro x hx
    exact (List.mem_append.1 hx).elim (fun hx => List.mem_append_left _ (h.pend x hx))
      (List.mem_append_right _)
  · intro f hf hsc a ha
    by_cases hfn : f = n
    · subst hfn
      have hlf : s.holds key f = some val :=
        h.keeps f (List.mem_of_head? hf) fun hdel => by simp [hd] at hdel
      have hmem := List.mem_map_of_mem (f := fun o => (f, o))
        (mem_replaceCopy now hv hs hn hlf hf ha)
      exact ⟨List.mem_append_right _ hmem, .inl (List.mem_append_right _ hmem)⟩
    · obtain ⟨ho, hp⟩ := h.copied f hf (List.mem_of_ne_of_mem hfn hsc) a ha
      exact ⟨List.mem_append_left _ ho,
        hp.imp (List.mem_append_left _) fun hp => (hholds a).trans hp⟩

theorem apply_moves (h : s.Moves src dst key val) {k : ℕ} {o : Address × Offer}
    (hk : s.pending[k]? = some o) (hd : s.deleted = []) :
    ({ s with
      store := Function.update s.store o.2.dest (submitMessage (s.store o.2.dest) o.2)
      pending := s.pending.eraseIdx k } : Replacing).Moves src dst key val := by
  have hpend : ∀ x ∈ s.pending, x = o ∨ x ∈ s.pending.eraseIdx k := by
    intro x hx
    obtain ⟨j, hj⟩ := List.mem_iff_getElem?.1 hx
    by_cases hjk : j = k
    · subst hjk
      exact .inl (Option.some.inj (hj.symm.trans hk))
    · exact .inr (List.mem_eraseIdx_iff_getElem?.2 ⟨j, hjk, hj⟩)
  have ho := h.offers o (h.pend o (List.mem_of_getElem? hk))
  -- a record of the key leaves its receiver with the entry, another record changes nothing
  have hholds : ∀ a, ({ s with
      store := Function.update s.store o.2.dest (submitMessage (s.store o.2.dest) o.2) } :
      Replacing).holds key a =
        if a = o.2.dest ∧ o.2.key = key then some val else s.holds key a := by
    intro a
    rw [holds_update]
    by_cases ha : a = o.2.dest
    · subst ha
      by_cases hkey : o.2.key = key
      · subst hkey
        obtain ⟨-, hval, -⟩ := ho rfl
        rw [if_pos rfl, if_pos ⟨rfl, rfl⟩, ← hval]
        exact lookup_submitMessage_self (hval ▸ h.version o.2.dest)
      · rw [if_pos rfl, if_neg fun hh => hkey hh.2]
        exact lookup_submitMessage hkey
    · rw [if_neg ha, if_neg fun hh => ha hh.1]
  have hsome : ∀ a, s.holds key a = some val → ({ s with
      store := Function.update s.store o.2.dest (submitMessage (s.store o.2.dest) o.2) } :
      Replacing).holds key a = some val := by
    intro a ha
    rw [hholds]
    split_ifs
    · rfl
    · exact ha
  refine ⟨fun a => ?_, fun a ha hda => hsome a (h.keeps a ha hda),
    fun a ha => by simp [hd] at ha, h.offers,
    fun x hx => h.pend x (List.mem_of_mem_eraseIdx hx), ?_, fun hne => absurd hd hne⟩
  · rcases h.version a with ha | ha
    · refine (em (a = o.2.dest ∧ o.2.key = key)).elim (fun hh => .inr ?_) fun hh => .inl ?_
      · exact (hholds a).trans (if_pos hh)
      · exact ((hholds a).trans (if_neg hh)).trans ha
    · exact .inr (hsome a ha)
  · intro f hf hsc a ha
    obtain ⟨hoff, hp⟩ := h.copied f hf hsc a ha
    refine ⟨hoff, ?_⟩
    rcases hp with hp | hp
    · rcases hpend _ hp with rfl | hp
      · exact .inr ((hholds a).trans (if_pos ⟨rfl, rfl⟩))
      · exact .inl hp
    · exact .inr (hsome a hp)

theorem delete_moves (hv : valueMetaSize ≤ val.length) (h : s.Moves src dst key val)
    {n : Address} {now : ClockTime} (hn : n ∈ dst.getActiveNodes) (hc : s.Copied dst) :
    ({ s with
      store := Function.update s.store n (replaceDelete n dst now (s.store n))
      deleted := n :: s.deleted } : Replacing).Moves src dst key val := by
  have hlive : ∀ v, (s.store n).db.lookup key = some v → valueMetaSize ≤ v.length := by
    intro v hl
    rcases h.version n with h0 | h0
    · exact absurd (h0.symm.trans hl) (by simp)
    · rwa [Option.some.inj (hl.symm.trans h0)]
  have hholds : ∀ a, ({ s with
      store := Function.update s.store n (replaceDelete n dst now (s.store n)) } :
      Replacing).holds key a =
        if a = n ∧ a ∉ dst.activeAssigned (Storage.hashOf key) then none else s.holds key a := by
    intro a
    rw [holds_update]
    by_cases ha : a = n
    · subst ha
      rw [if_pos rfl, lookup_replaceDelete (not_empty_of_mem hn) hlive]
      by_cases hda : a ∈ dst.activeAssigned (Storage.hashOf key)
      · rw [if_pos (testReplicatorAssign_iff.2 hda), if_neg fun hh => hh.2 hda]
        rfl
      · rw [if_neg fun hh => hda (testReplicatorAssign_iff.1 hh), if_pos ⟨rfl, hda⟩]
    · rw [if_neg ha, if_neg fun hh => ha hh.1]
  have hkeep : ∀ a, (a = n → a ∈ dst.activeAssigned (Storage.hashOf key)) → ({ s with
      store := Function.update s.store n (replaceDelete n dst now (s.store n)) } :
      Replacing).holds key a = s.holds key a := by
    intro a ha
    rw [hholds, if_neg fun hh => hh.2 (ha hh.1)]
  refine ⟨fun a => ?_, fun a ha hda => ?_, fun a ha hda => ?_, h.offers, h.pend, ?_, fun _ => hc⟩
  · by_cases ha : a = n ∧ a ∉ dst.activeAssigned (Storage.hashOf key)
    · exact .inl ((hholds a).trans (if_pos ha))
    · have he := (hholds a).trans (if_neg ha)
      exact (h.version a).imp he.trans he.trans
  · refine (hkeep a fun hn => hda (hn ▸ List.mem_cons_self)).trans (h.keeps a ha fun hd => ?_)
    exact hda (List.mem_cons_of_mem _ hd)
  · by_cases han : a = n
    · exact (hholds a).trans (if_pos ⟨han, hda⟩)
    · exact (hkeep a fun hh => absurd hh han).trans
        (h.dropped a (List.mem_of_ne_of_mem han ha) hda)
  · intro f hf hsc a ha
    obtain ⟨hoff, hp⟩ := h.copied f hf hsc a ha
    exact ⟨hoff, hp.imp_right (hkeep a fun _ => (mem_newbies.1 ha).1).trans⟩

theorem step_moves (hv : valueMetaSize ≤ val.length) (hs : src.getActiveNodes ≠ [])
    (h : s.Moves src dst key val) {a : Act} (hst : step src dst s a = some t) :
    t.Moves src dst key val := by
  cases a with
  | scan n now =>
    simp only [step] at hst
    split_ifs at hst with hn
    cases hst
    refine scan_moves hv hs h hn.1 ?_
    by_contra hd
    exact hn.2 ((h.phase hd).1 n hn.1)
  | apply k =>
    obtain ⟨o, ho, rfl⟩ := Option.map_eq_some_iff.1 hst
    refine apply_moves h ho ?_
    by_contra hd
    rw [(h.phase hd).2] at ho
    simp at ho
  | delete n now =>
    simp only [step] at hst
    split_ifs at hst with hn
    cases hst
    exact delete_moves hv h hn.2.1 hn.1

theorem start_moves {store : Address → Storage}
    (hheld : ∀ a ∈ owners src dst key, (store a).db.lookup key = some val)
    (hver : ∀ a, (store a).db.lookup key = none ∨ (store a).db.lookup key = some val) :
    (start store).Moves src dst key val :=
  ⟨hver, fun a ha _ => hheld a ha, by simp [start], by simp [start], by simp [start],
    by simp [start], by simp [start]⟩

section Seeds

variable {hash : Bytes → UInt64} {ss ds : Seed} {store : Address → Storage} {as : List Act}

/-- After the replace the entry is where the new hash space assigns it, and nowhere else among its
servers; each server that is new to it was offered it by exactly one. -/
theorem complete_moves_entry (hv : valueMetaSize ≤ val.length)
    (howner : owners (.ofSeed hash ss) (.ofSeed hash ds) key ≠ [])
    (hheld : ∀ a ∈ owners (.ofSeed hash ss) (.ofSeed hash ds) key,
      (store a).db.lookup key = some val)
    (hver : ∀ a, (store a).db.lookup key = none ∨ (store a).db.lookup key = some val)
    (hrun : Machine.Run (step (.ofSeed hash ss) (.ofSeed hash ds)) Machine.Free (start store) as s)
    (hc : s.Complete (.ofSeed hash ds)) :
    (∀ a ∈ (HashSpace.ofSeed hash ds).activeAssigned (Storage.hashOf key),
      s.holds key a = some val) ∧
    (∀ a ∈ (HashSpace.ofSeed hash ds).getActiveNodes,
      a ∉ (HashSpace.ofSeed hash ds).activeAssigned (Storage.hashOf key) →
        s.holds key a = none) ∧
    ∀ a ∈ (HashSpace.ofSeed hash ds).activeAssigned (Storage.hashOf key),
      a ∉ (HashSpace.ofSeed hash ss).activeAssigned (Storage.hashOf key) →
        ∃! n, (n, ⟨a, key, val⟩) ∈ s.offered := by
  obtain ⟨f, hf⟩ : ∃ f, (owners (.ofSeed hash ss) (.ofSeed hash ds) key).head? = some f :=
    ⟨_, List.head?_eq_some_head howner⟩
  have hfo := List.mem_of_head? hf
  have hs : (HashSpace.ofSeed hash ss).getActiveNodes ≠ [] := List.ne_nil_of_mem
    (HashSpace.mem_getActiveNodes_of_activeAssigned (mem_currentOwners.1 hfo).1)
  have hm : s.Moves (.ofSeed hash ss) (.ofSeed hash ds) key val :=
    hrun.inv (fun _ _ _ h _ hst => step_moves hv hs h hst) (start_moves hheld hver)
  obtain ⟨⟨hscan, hpend⟩, hdel⟩ := hc
  have hcopied := hm.copied f hf (hscan f (active_of_mem_currentOwners hfo))
  refine ⟨fun a ha => ?_, fun a ha hna => hm.dropped a (hdel a ha) hna, fun a ha hna => ?_⟩
  · by_cases has : a ∈ (HashSpace.ofSeed hash ss).activeAssigned (Storage.hashOf key)
    · refine hm.keeps a (mem_currentOwners.2 ⟨has, fun hfa => ?_⟩) fun _ => ha
      exact (mem_faultNodes.1 hfa).2 (HashSpace.mem_getActiveNodes_of_activeAssigned ha)
    · rcases (hcopied a (mem_newbies.2 ⟨ha, has⟩)).2 with hp | hp
      · rw [hpend] at hp
        exact absurd hp List.not_mem_nil
      · exact hp
  · refine ⟨f, (hcopied a (mem_newbies.2 ⟨ha, hna⟩)).1, fun n hn => ?_⟩
    exact Option.some.inj ((hm.offers _ hn rfl).1.symm.trans hf)

end Seeds

/-! The first server has a record, and a second one comes. -/

section Sample

open Sample

def oneStore (a : Address) : Storage :=
  ⟨if a = svr 1 then AList.insert entryKey entryVal ∅ else ∅, [], 0, 100, 1000⟩

def growRun : List Act :=
  [.scan (svr 1) (.mk' 1 1000), .apply 0, .scan (svr 2) (.mk' 1 1000),
    .delete (svr 1) (.mk' 1 1000), .delete (svr 2) (.mk' 1 1000)]

theorem growRun_complete : ((Machine.exec (step (.ofSeed zeroHash oneSeed) (.ofSeed zeroHash twoSeed))
    (start oneStore) growRun).any fun s => s.Complete (.ofSeed zeroHash twoSeed)) = true := by
  decide +kernel

theorem owners_growRun :
    owners (.ofSeed zeroHash oneSeed) (.ofSeed zeroHash twoSeed) entryKey = [svr 1] := by
  decide +kernel

theorem growRun_moves_entry : ∃ s : Replacing, s.Complete (.ofSeed zeroHash twoSeed) ∧
    (∀ a ∈ (HashSpace.ofSeed zeroHash twoSeed).activeAssigned (Storage.hashOf entryKey),
      s.holds entryKey a = some entryVal) ∧
    (∀ a ∈ (HashSpace.ofSeed zeroHash twoSeed).getActiveNodes,
      a ∉ (HashSpace.ofSeed zeroHash twoSeed).activeAssigned (Storage.hashOf entryKey) →
        s.holds entryKey a = none) ∧
    ∀ a ∈ (HashSpace.ofSeed zeroHash twoSeed).activeAssigned (Storage.hashOf entryKey),
      a ∉ (HashSpace.ofSeed zeroHash oneSeed).activeAssigned (Storage.hashOf entryKey) →
        ∃! n, (n, ⟨a, entryKey, entryVal⟩) ∈ s.offered := by
  obtain ⟨s, hs, hc⟩ := (Option.any_eq_true _ _).1 growRun_complete
  have hc : s.Complete (.ofSeed zeroHash twoSeed) := of_decide_eq_true hc
  refine ⟨s, hc, complete_moves_entry (by decide) ?_ ?_ ?_ (Machine.exec_run hs) hc⟩
  · rw [owners_growRun]
    decide
  · rw [owners_growRun]
    decide
  · intro a
    by_cases ha : a = svr 1
    · subst ha
      exact .inr rfl
    · exact .inl (by simp [oneStore, ha])

end Sample

end Replacing

end Kumofs
