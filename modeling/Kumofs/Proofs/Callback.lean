import Kumofs.Gateway.Request
import Kumofs.Proofs.Ring
import Kumofs.Sample

/-!
# The gateway calls back once

A timer that finds no server forgets its request. It never does: a request is only scheduled after a
call, for which there was a server, and a hash space with an active node is only replaced by another
one. So every request whose last attempt is over has called back, and only once.
-/

namespace Kumofs.Gateway

variable {hash : Bytes → UInt64} {hs : HashSpace} {h : UInt64} {offset : ℕ}

theorem serverFor_empty (he : hs.empty = true) : serverFor hs h offset = .error "No server" := by
  unfold serverFor
  exact if_pos he

theorem serverFor_ok {seed : Seed} (hs' : hs = .ofSeed hash seed) (he : hs.empty = false) :
    ∃ a, serverFor hs h offset = .ok a := by
  have hne : hs.hashspace ≠ [] := by
    subst hs'
    refine HashSpace.hashspace_ne_nil hash fun hn => ?_
    simp [HashSpace.empty, HashSpace.ofSeed, hn] at he
  have hlt : hs.find h < hs.reals.length := by
    unfold HashSpace.find HashSpace.reals
    simp only [List.length_map]
    have := List.length_pos_of_ne_nil hne
    have : hs.hashspace.findIdx (fun v => !decide (v.hash < h)) ≤ hs.hashspace.length :=
      List.findIdx_le_length
    split_ifs <;> omega
  unfold serverFor
  simp only [he, Bool.false_eq_true, if_false, List.getElem?_eq_getElem hlt]
  -- the walk ends at a node whichever way it goes
  split
  · exact ⟨_, rfl⟩
  · split
    · exact ⟨_, rfl⟩
    · split
      · exact ⟨_, rfl⟩
      · split
        · exact ⟨_, rfl⟩
        · exact ⟨_, rfl⟩

namespace Pending

/-! ## Hash spaces -/

/-- A hash space as the gateway may have it: without an active node, or made of a seed. -/
def Made (hash : Bytes → UInt64) (hs : HashSpace) : Prop :=
  hs.empty = false → ∃ seed, hs = .ofSeed hash seed

theorem made_update {seed : Seed} (hm : Made hash hs) : Made hash (update hash hs seed) := by
  unfold update
  split_ifs
  · exact fun _ => ⟨seed, rfl⟩
  · exact hm

/-- A hash space with an active node keeps one. -/
theorem empty_update {seed : Seed} (he : hs.empty = false) :
    (update hash hs seed).empty = false := by
  unfold update
  split_ifs with hu
  · simp only [he, Bool.false_or, Bool.and_eq_true, Bool.not_eq_true'] at hu
    exact hu.2
  · exact he

/-! ## Steps -/

structure Sound (hash : Bytes → UInt64) (s : Pending) : Prop where
  whs : Made hash s.whs
  rhs : Made hash s.rhs
  server : s.phase = .calling ∨ (∃ offset, s.phase = .scheduled offset) → s.hs.empty = false
  called : s.called.length = if s.phase = .over then 1 else 0

variable {cfg : Config} {s t : Pending} {a : Act}

theorem Sound.made (hs : s.Sound hash) : Made hash s.hs := by
  unfold Pending.hs
  split
  · exact hs.rhs
  · exact hs.rhs
  · exact hs.whs
  · exact hs.whs

theorem Sound.report (hs : s.Sound hash) (hp : s.phase ≠ .over) (r : Result) :
    (s.report r).Sound hash := by
  refine ⟨hs.whs, hs.rhs, by simp [Pending.report], ?_⟩
  have := hs.called
  rw [if_neg hp] at this
  simp [Pending.report, this]

theorem Sound.calling (hs : s.Sound hash) (hp : s.phase ≠ .over) (he : s.hs.empty = false) :
    Sound hash { s with phase := .calling } := by
  refine ⟨hs.whs, hs.rhs, fun _ => he, ?_⟩
  have := hs.called
  rw [if_neg hp] at this
  simpa using this

/-- A call is made, or the lack of a server is answered. -/
theorem Sound.call (hs : s.Sound hash) (hp : s.phase ≠ .over) : (s.call h offset).Sound hash := by
  unfold Pending.call
  cases he : s.hs.empty with
  | true =>
    rw [serverFor_empty he]
    exact hs.report hp _
  | false =>
    obtain ⟨seed, hseed⟩ := hs.made he
    obtain ⟨addr, ha⟩ : ∃ a, serverFor s.hs h offset = .ok a := serverFor_ok hseed he
    rw [ha]
    exact hs.calling hp he

theorem Sound.scheduled (hs : s.Sound hash) (hp : s.phase = .calling) :
    Sound hash { s with phase := .scheduled offset } := by
  refine ⟨hs.whs, hs.rhs, fun _ => hs.server (.inl hp), ?_⟩
  have := hs.called
  simpa [hp] using this

theorem Sound.retried (hs : s.Sound hash) {n : UInt16} : Sound hash { s with retried := n } :=
  ⟨hs.whs, hs.rhs, hs.server, hs.called⟩

theorem Sound.step (hs : s.Sound hash) (ht : step hash cfg h s a = some t) : t.Sound hash := by
  cases a with
  | hashSpacePush wseed rseed =>
    cases ht
    refine ⟨made_update hs.whs, made_update hs.rhs, fun hp => ?_, hs.called⟩
    have he := hs.server hp
    unfold Pending.hs at he ⊢
    cases hq : s.query <;> simp only [hq] at he ⊢ <;> exact empty_update he
  | submit =>
    simp only [Pending.step] at ht
    split_ifs at ht with hp
    cases ht
    exact hs.call (by simp [hp])
  | outcome res =>
    simp only [Pending.step] at ht
    split_ifs at ht with hp
    cases ht
    have hs' := hs.retried (n := (s.onReply cfg res).1)
    have hp' : s.phase ≠ .over := by simp [hp]
    split
    next r _ => exact hs'.report hp' r
    next => exact hs'.call hp'
    next => exact hs'.scheduled hp
  | fire =>
    simp only [Pending.step] at ht
    split at ht
    next offset hp =>
      have he := hs.server (.inr ⟨offset, hp⟩)
      obtain ⟨seed, hseed⟩ := hs.made he
      obtain ⟨addr, ha⟩ : ∃ a, serverFor s.hs h offset = .ok a := serverFor_ok hseed he
      rw [ha] at ht
      cases ht
      exact hs.calling (by simp [hp]) he
    next => cases ht

theorem init_sound (query : Query) : (init query).Sound hash :=
  ⟨fun h => absurd h Bool.noConfusion, fun h => absurd h Bool.noConfusion, by simp [init], rfl⟩

/-- Whatever the outcomes of the calls and the hash spaces that are pushed in between, the user's
callback has been called once when the request is over, and not at all before. -/
theorem calledOnce {query : Query} {acts : List Act}
    (hrun : Machine.Run (step hash cfg h) Machine.Free (init query) acts s) :
    s.called.length = if s.phase = .over then 1 else 0 :=
  (hrun.inv (fun _ _ _ hs _ ht => hs.step ht) (init_sound query)).called

/-! ## Attempts -/

/-- What `retry_incr` is given. -/
def limit (cfg : Config) : Query → UInt16
  | .get | .getIfModified _ => UInt16.ofNat (numReplication + 1) * cfg.getRetryNum - 1
  | .set => cfg.setRetryNum
  | .delete => cfg.deleteRetryNum

theorem getError_cases (cfg : Config) (n : UInt16) : (∃ r, (getError cfg n).2 = .report r) ∨
    (getError cfg n).1 = n + 1 ∧ n + 1 ≤ limit cfg .get := by
  unfold getError
  simp only []
  split_ifs with hl ho
  · exact .inr ⟨trivial, hl⟩
  · exact .inr ⟨trivial, hl⟩
  · exact .inl ⟨_, rfl⟩

theorem resGet_cases (cfg : Config) (n : UInt16) (res : Option Reply) :
    (∃ r, (resGet cfg n res).2 = .report r) ∨
      (resGet cfg n res).1 = n + 1 ∧ n + 1 ≤ limit cfg .get := by
  unfold resGet
  split
  case h_3 | h_4 => exact getError_cases cfg n
  all_goals exact .inl ⟨_, rfl⟩

/-- An outcome that is not reported is counted. -/
theorem onReply_cases (cfg : Config) (s : Pending) (res : Option Reply) :
    (∃ r, (s.onReply cfg res).2 = .report r) ∨
      (s.onReply cfg res).1 = s.retried + 1 ∧ s.retried + 1 ≤ limit cfg s.query := by
  unfold onReply
  cases hq : s.query with
  | get => exact resGet_cases cfg s.retried res
  | getIfModified cached =>
    simp only [resGetIfModified]
    split
    · exact .inl ⟨_, rfl⟩
    · exact resGet_cases cfg s.retried res
  | set =>
    have hset : ∀ r, (resSet cfg.setRetryNum s.retried r).2 = .retry →
        (resSet cfg.setRetryNum s.retried r).1 = s.retried + 1 ∧
          s.retried + 1 ≤ cfg.setRetryNum := by
      intro r hr
      unfold resSet at hr ⊢
      split at hr
      case h_4 | h_5 | h_6 => exact ⟨rfl, by simpa using hr⟩
      all_goals cases hr
    simp only [resSetReply]
    split
    next r =>
      cases hr : (resSet cfg.setRetryNum s.retried (some r)).2 with
      | retry => exact .inr (hset _ hr)
      | report x => exact .inl ⟨_, rfl⟩
    next =>
      cases hr : (resSet cfg.setRetryNum s.retried none).2 with
      | retry => exact .inr (hset _ hr)
      | report x => exact .inl ⟨_, rfl⟩
    next => exact .inl ⟨_, rfl⟩
    next => exact .inl ⟨_, rfl⟩
  | delete =>
    simp only [resDelete]
    split
    case h_5 | h_6 | h_7 =>
      split_ifs with hl
      · exact .inr ⟨rfl, hl⟩
      · exact .inl ⟨_, rfl⟩
    all_goals exact .inl ⟨_, rfl⟩

def isOutcome : Act → Bool
  | .outcome _ => true
  | _ => false

theorem call_keeps (s : Pending) (h : UInt64) (offset : ℕ) :
    (s.call h offset).query = s.query ∧ (s.call h offset).retried = s.retried := by
  unfold call
  split
  · exact ⟨rfl, rfl⟩
  · exact ⟨rfl, rfl⟩

/-- A step that is no outcome counts nothing, and an outcome ends the request or is counted. -/
theorem step_attempt (ht : step hash cfg h s a = some t) : t.query = s.query ∧
    (isOutcome a = false → t.retried = s.retried ∧ (s.phase = .over → t.phase = .over)) ∧
    (isOutcome a = true → s.phase = .calling ∧ (t.phase = .over ∨
      t.retried = s.retried + 1 ∧ s.retried + 1 ≤ limit cfg s.query)) := by
  cases a with
  | hashSpacePush wseed rseed =>
    cases ht
    exact ⟨rfl, fun _ => ⟨rfl, fun hp => hp⟩, Bool.noConfusion⟩
  | submit =>
    simp only [Pending.step] at ht
    split_ifs at ht with hp
    cases ht
    obtain ⟨hq, hr⟩ := call_keeps s h 0
    exact ⟨hq, fun _ => ⟨hr, by simp [hp]⟩, Bool.noConfusion⟩
  | outcome res =>
    simp only [Pending.step] at ht
    split_ifs at ht with hp
    cases ht
    have hc := onReply_cases cfg s res
    refine ⟨?_, Bool.noConfusion, fun _ => ⟨hp, ?_⟩⟩
    · split
      · rfl
      · exact (call_keeps _ _ _).1
      · rfl
    · split
      next => exact .inl rfl
      next offset ho =>
        rw [(call_keeps _ _ _).2]
        exact .inr (hc.resolve_left (by simp [ho]))
      next ho => exact .inr (hc.resolve_left (by simp [ho]))
  | fire =>
    simp only [Pending.step] at ht
    split at ht
    next offset hp =>
      split at ht
      · cases ht
        exact ⟨rfl, fun _ => ⟨rfl, fun _ => rfl⟩, Bool.noConfusion⟩
      · cases ht
        exact ⟨rfl, fun _ => ⟨rfl, by simp [hp]⟩, Bool.noConfusion⟩
    next => cases ht

/-- The attempts that are counted, or all of them. -/
def spent (cfg : Config) (s : Pending) : ℕ :=
  if s.phase = .over then (limit cfg s.query).toNat + 1 else s.retried.toNat

theorem spent_step (hl : limit cfg s.query ≠ 65535)
    (hr : s.phase ≠ .over → s.retried ≤ limit cfg s.query) (ht : step hash cfg h s a = some t) :
    (t.phase ≠ .over → t.retried ≤ limit cfg t.query) ∧
      (isOutcome a).toNat + s.spent cfg ≤ t.spent cfg := by
  obtain ⟨hq, hother, hout⟩ := step_attempt ht
  unfold spent
  rw [hq]
  cases ha : isOutcome a with
  | false =>
    obtain ⟨hret, hover⟩ := hother ha
    refine ⟨fun hp => hret ▸ hr fun h => hp (hover h), ?_⟩
    by_cases hp : s.phase = .over
    · simp [hp, hover hp]
    · have := UInt16.le_iff_toNat_le.1 (hr hp)
      rw [if_neg hp, hret]
      split_ifs
      · simp
        omega
      · simp
  | true =>
    obtain ⟨hp, hnext⟩ := hout ha
    have hp' : s.phase ≠ .over := by simp [hp]
    have hle := UInt16.le_iff_toNat_le.1 (hr hp')
    rw [if_neg hp']
    by_cases ht' : t.phase = .over
    · refine ⟨fun h => absurd ht' h, ?_⟩
      rw [if_pos ht']
      simp
      omega
    · obtain ⟨hret, hlim⟩ := hnext.resolve_left ht'
      refine ⟨fun _ => hret ▸ hlim, ?_⟩
      have hlt : (limit cfg s.query).toNat ≠ 65535 := fun h => hl (UInt16.toNat_inj.1 h)
      have := (limit cfg s.query).toNat_lt
      rw [if_neg ht', hret, UInt16.toNat_add]
      simp
      omega

/-- A request makes at most one attempt more than it may retry, unless that number is the greatest
one, which `retry_incr` never exceeds. -/
theorem outcomes_le {acts : List Act} (hrun : Machine.Run (step hash cfg h) Machine.Free s acts t)
    (hl : limit cfg s.query ≠ 65535) (hr : s.phase ≠ .over → s.retried ≤ limit cfg s.query) :
    acts.countP isOutcome + s.spent cfg ≤ (limit cfg s.query).toNat + 1 := by
  induction hrun with
  | nil s =>
    unfold spent
    split_ifs with hp
    · simp
    · have := UInt16.le_iff_toNat_le.1 (hr hp)
      simp
      omega
  | @cons s u t a as _ hst _ ih =>
    obtain ⟨hr', hle⟩ := spent_step hl hr hst
    have hq := (step_attempt hst).1
    have ih := ih (hq ▸ hl) hr'
    rw [hq] at ih
    rw [List.countP_cons]
    cases ha : isOutcome a <;> simp [ha] at hle ⊢ <;> omega

/-! A `Set` whose first call times out. A hash space without servers is pushed before the timer
fires. -/

section Sample

open Sample

def retryActs : List Act :=
  [.hashSpacePush twoSeed twoSeed, .submit, .outcome none,
    .hashSpacePush ⟨[], .mk' 3 1000⟩ ⟨[], .mk' 3 1000⟩, .fire,
    .outcome (some (.response (.clocktime (.mk' 4 1000))))]

theorem retryActs_over :
    ((Machine.exec (step zeroHash ⟨1, 1, 1⟩ 0) (init .set) retryActs).any fun s =>
      s.phase = .over ∧ s.retried = 1) = true := by
  decide +kernel

theorem retryActs_calledOnce : ∃ s : Pending,
    Machine.Run (step zeroHash ⟨1, 1, 1⟩ 0) Machine.Free (init .set) retryActs s ∧
      s.phase = .over ∧ s.retried = 1 ∧ s.called.length = 1 := by
  obtain ⟨s, hs, hany⟩ := (Option.any_eq_true _ _).1 retryActs_over
  obtain ⟨hover, hret⟩ := of_decide_eq_true hany
  have hrun := Machine.exec_run hs
  exact ⟨s, hrun, hover, hret, (calledOnce hrun).trans (if_pos hover)⟩

end Sample

end Pending

end Kumofs.Gateway
