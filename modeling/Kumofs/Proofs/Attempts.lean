import Kumofs.Proofs.Callback
import Kumofs.System.Attempts

/-!
# The gateway stops to retry

`retry_incr` counts in 16 bits, and what it is given is converted to 16 bits too. It ends a request
unless that is the greatest number there is: then the counter starts again at 0, and never exceeds
it. A number of retries of a `Get` that is 0 makes -1 of the limit.
-/

namespace Kumofs.Gateway

variable {hash : Bytes → UInt64} {cfg : Config} {h : UInt64} {query : Query}

namespace Pending

variable {s : Pending} {res : Option Reply}

/-- How a request goes on that has been retried so often. -/
def again (retried : UInt16) : Query → Then
  | .get | .getIfModified _ =>
    if retried.toNat % (numReplication + 1) = 0 then .retryAfter 0
    else .call (retried.toNat % (numReplication + 1))
  | .set | .delete => .retryAfter 0

theorem getError_eq (n : UInt16) : getError cfg n =
    (n + 1, if n + 1 ≤ limit cfg .get then again (n + 1) .get else .report .error) := by
  unfold getError again limit
  simp only []
  split_ifs with hl ho
  · rw [ho]
  · rfl
  · rfl

theorem fails_cases (hf : query.fails res = true) : res = none ∨
    (∃ e, res = some (.response (.error e))) ∨
      (res = some (.response .null) ∧ (query = .set ∨ query = .delete)) := by
  unfold Query.fails at hf
  split at hf
  · exact .inl rfl
  · exact .inr (.inl ⟨_, rfl⟩)
  · exact .inr (.inr ⟨rfl, .inl rfl⟩)
  · exact .inr (.inr ⟨rfl, .inr rfl⟩)
  · cases hf

theorem resSetReply_fails (hf : Query.set.fails res = true) (n : UInt16) :
    resSetReply cfg n res =
      (n + 1, if n + 1 ≤ cfg.setRetryNum then .retryAfter 0 else .report (.set .error)) := by
  rcases fails_cases hf with rfl | ⟨e, rfl⟩ | ⟨rfl, -⟩ <;>
    by_cases hl : n + 1 ≤ cfg.setRetryNum <;> simp [resSetReply, resSet, hl]

theorem resDelete_fails (hf : Query.delete.fails res = true) (n : UInt16) :
    resDelete cfg n res =
      (n + 1, if n + 1 ≤ cfg.deleteRetryNum then .retryAfter 0 else .report .error) := by
  rcases fails_cases hf with rfl | ⟨e, rfl⟩ | ⟨rfl, -⟩ <;> rfl

theorem resGet_fails (hf : Query.get.fails res = true) (n : UInt16) :
    resGet cfg n res = getError cfg n := by
  rcases fails_cases hf with rfl | ⟨e, rfl⟩ | ⟨-, hq⟩
  · rfl
  · rfl
  · simp at hq

/-- What comes after a reply that fails. -/
theorem onReply_fails (hf : s.query.fails res = true) : s.onReply cfg res =
    (s.retried + 1, if s.retried + 1 ≤ limit cfg s.query then again (s.retried + 1) s.query
      else .report s.caught) := by
  unfold onReply caught
  cases hq : s.query with
  | get =>
    rw [hq] at hf
    exact (resGet_fails hf _).trans (getError_eq _)
  | getIfModified cached =>
    rw [hq] at hf
    have hget : resGetIfModified cfg cached s.retried res = resGet cfg s.retried res := by
      rcases fails_cases hf with rfl | ⟨e, rfl⟩ | ⟨-, hq'⟩
      · rfl
      · rfl
      · simp at hq'
    have hf' : Query.get.fails res = true := by
      rcases fails_cases hf with rfl | ⟨e, rfl⟩ | ⟨-, hq'⟩
      · rfl
      · rfl
      · simp at hq'
    exact hget.trans ((resGet_fails hf' _).trans (getError_eq _))
  | set =>
    rw [hq] at hf
    exact resSetReply_fails hf _
  | delete =>
    rw [hq] at hf
    exact resDelete_fails hf _

theorem again_cases (n : UInt16) (q : Query) :
    again n q = .retryAfter 0 ∨ ∃ offset, again n q = .call offset := by
  cases q with
  | get | getIfModified cached =>
    simp only [again]
    split_ifs
    · exact .inl rfl
    · exact .inr ⟨_, rfl⟩
  | set | delete => exact .inl rfl

theorem call_cases (s : Pending) (h : UInt64) (offset : ℕ) :
    s.call h offset = s.report s.caught ∨ s.call h offset = { s with phase := .calling } := by
  unfold call
  split
  · exact .inl rfl
  · exact .inr rfl

end Pending

namespace Attempting

open Pending (Act limit again)

variable {s t : Attempting} {a : Act}

/-- What the numbers of a request tell, as long as its limit ends it. -/
structure Counts (hash : Bytes → UInt64) (cfg : Config) (query : Query) (s : Attempting) :
    Prop where
  sound : s.pending.Sound hash
  same : s.pending.query = query
  attempts : s.attempts = s.replies + if s.pending.phase = .calling then 1 else 0
  replies : s.pending.phase ≠ .over →
    s.replies = s.pending.retried.toNat ∧ s.pending.retried ≤ limit cfg query
  replies_le : s.replies ≤ (limit cfg query).toNat + 1
  called : ∀ r ∈ s.pending.called, r = s.pending.caught

theorem counts_init : Counts hash cfg query (init query) :=
  ⟨Pending.init_sound query, rfl, rfl, fun _ => ⟨rfl, UInt16.zero_le⟩, Nat.zero_le _, by
    simp [init, Pending.init]⟩

theorem step_eq_some : step hash cfg h s a = some t ↔
    ∃ p, s.pending.step hash cfg h a = some p ∧ t =
      ⟨p, s.attempts + (if mayCall a ∧ p.phase = .calling then 1 else 0),
        s.replies + if isReply a then 1 else 0⟩ := by
  unfold step
  rw [Option.map_eq_some_iff]
  exact exists_congr fun p => and_congr_right fun _ => eq_comm

/-- The request is given up. -/
theorem Counts.report (hc : Counts hash cfg query s) {n : ℕ} {p : Pending}
    (hp : p.Sound hash) (hn : n ≤ (limit cfg query).toNat + 1) (hq : p.query = query)
    (hover : p.phase = .over) (hcalled : p.called = s.pending.called ++ [s.pending.caught]) :
    Counts hash cfg query ⟨p, n, n⟩ := by
  have hcaught : p.caught = s.pending.caught := by
    unfold Pending.caught
    rw [hq, hc.same]
  refine ⟨hp, hq, ?_, fun h => absurd hover h, hn, ?_⟩
  · simp [hover]
  · intro r hr
    simp only [hcalled, List.mem_append, List.mem_singleton] at hr
    rw [hcaught]
    exact hr.elim (hc.called r) id

theorem Counts.call (hc : Counts hash cfg query s) (h : UInt64) (offset : ℕ) {p : Pending} {n : ℕ}
    {retried : UInt16} (hp : p = { s.pending with retried := retried })
    (hover : s.pending.phase ≠ .over) (hn : n = retried.toNat) (hl : retried ≤ limit cfg query) :
    Counts hash cfg query
      ⟨p.call h offset, n + (if (p.call h offset).phase = .calling then 1 else 0), n⟩ := by
  have hsound : p.Sound hash := hp ▸ hc.sound.retried
  have hle : n ≤ (limit cfg query).toNat + 1 := by
    have := UInt16.le_iff_toNat_le.1 hl
    omega
  have hcall := @Pending.Sound.call hash h offset p hsound (by rw [hp]; exact hover)
  rcases Pending.call_cases p h offset with he | he
  · rw [he] at hcall ⊢
    have hover' : (p.report p.caught).phase = .over := rfl
    simp only [hover', reduceCtorEq, if_false, Nat.add_zero]
    refine hc.report hcall hle ?_ rfl ?_
    · rw [hp]
      exact hc.same
    · rw [hp]
      rfl
  · rw [he] at hcall ⊢
    refine ⟨hcall, ?_, rfl, fun _ => ?_, hle, ?_⟩
    · rw [hp]
      exact hc.same
    · rw [hp]
      exact ⟨hn, hl⟩
    · rw [hp]
      exact hc.called

theorem Counts.step (hc : Counts hash cfg query s) (hl : limit cfg query ≠ 65535)
    (hf : Fails s a) (ht : step hash cfg h s a = some t) : Counts hash cfg query t := by
  obtain ⟨p, hp, rfl⟩ := step_eq_some.1 ht
  have hsound := hc.sound.step hp
  obtain rfl := hc.same
  cases a with
  | hashSpacePush wseed rseed =>
    cases hp
    exact ⟨hsound, hc.same, by simpa [mayCall, isReply] using hc.attempts,
      by simpa [isReply] using hc.replies, by simpa [isReply] using hc.replies_le, hc.called⟩
  | submit =>
    simp only [Pending.step] at hp
    split_ifs at hp with hphase
    cases hp
    obtain ⟨hr, hlim⟩ := hc.replies (by simp [hphase])
    have ha : s.attempts = s.replies := by simpa [hphase] using hc.attempts
    simpa [mayCall, isReply, ha] using
      hc.call h 0 (p := s.pending) rfl (by simp [hphase]) hr hlim
  | outcome res =>
    simp only [Pending.step] at hp
    split_ifs at hp with hphase
    cases hp
    obtain ⟨hr, hlim⟩ := hc.replies (by simp [hphase])
    have ha : s.attempts = s.replies + 1 := by simpa [hphase] using hc.attempts
    have hlt : s.pending.retried.toNat < 65535 := by
      have hle := UInt16.le_iff_toNat_le.1 hlim
      have hne : (limit cfg s.pending.query).toNat ≠ 65535 := fun h => hl (UInt16.toNat_inj.1 h)
      have := (limit cfg s.pending.query).toNat_lt
      omega
    have hnext : (s.pending.retried + 1).toNat = s.replies + 1 := by
      rw [UInt16.toNat_add, hr, UInt16.toNat_one]
      omega
    simp only [Pending.onReply_fails hf] at hsound ⊢
    by_cases hle : s.pending.retried + 1 ≤ limit cfg s.pending.query
    · rw [if_pos hle] at hsound ⊢
      rcases Pending.again_cases (s.pending.retried + 1) s.pending.query with he | ⟨offset, he⟩
      · simp only [he] at hsound ⊢
        refine ⟨hsound, hc.same, by simp [mayCall, isReply, ha], fun _ => ?_, ?_, hc.called⟩
        · exact ⟨by simpa [isReply] using hnext.symm, hle⟩
        · have := UInt16.le_iff_toNat_le.1 hle
          simp only [isReply, if_true]
          omega
      · simp only [he, mayCall, isReply, true_and, if_true, ha] at hsound ⊢
        exact hc.call h offset
          (p := { s.pending with retried := s.pending.retried + 1 }) rfl (by simp [hphase])
          hnext.symm hle
    · rw [if_neg hle] at hsound ⊢
      simp only [mayCall, isReply, true_and, if_true, ha, Pending.report] at hsound ⊢
      simp only [reduceCtorEq, if_false, Nat.add_zero]
      have := UInt16.le_iff_toNat_le.1 hlim
      exact hc.report hsound (by omega) hc.same rfl rfl
  | fire =>
    simp only [Pending.step] at hp
    split at hp
    next offset hphase =>
      have he := hc.sound.server (.inr ⟨offset, hphase⟩)
      obtain ⟨seed, hseed⟩ := hc.sound.made he
      obtain ⟨addr, haddr⟩ : ∃ a, serverFor s.pending.hs h offset = .ok a :=
        serverFor_ok hseed he
      rw [haddr] at hp
      cases hp
      obtain ⟨hr, hlim⟩ := hc.replies (by simp [hphase])
      have ha : s.attempts = s.replies := by simpa [hphase] using hc.attempts
      exact ⟨hsound, hc.same, by simp [mayCall, isReply, ha], fun _ => ⟨hr, hlim⟩,
        hc.replies_le, hc.called⟩
    next => cases hp

/-! ## The limit -/

/-- `retry_incr` is given a number that its counter can exceed. -/
def Stops (cfg : Config) : Query → Prop
  | .get | .getIfModified _ => cfg.getRetryNum ≠ 0
  | .set => cfg.setRetryNum ≠ 65535
  | .delete => cfg.deleteRetryNum ≠ 65535

theorem toNat_limit_get : (limit cfg .get).toNat = (3 * cfg.getRetryNum.toNat + 65535) % 65536 := by
  have h3 : (UInt16.ofNat (numReplication + 1)).toNat = 3 := rfl
  have h1 : (1 : UInt16).toNat = 1 := rfl
  unfold limit
  rw [UInt16.toNat_sub, UInt16.toNat_mul, h3, h1]
  omega

theorem limit_get : limit cfg .get = 65535 ↔ cfg.getRetryNum = 0 := by
  have hlt := cfg.getRetryNum.toNat_lt
  have hmax : (65535 : UInt16).toNat = 65535 := rfl
  rw [← UInt16.toNat_inj, ← UInt16.toNat_inj, toNat_limit_get, hmax, UInt16.toNat_zero]
  omega

theorem stops_iff : Stops cfg query ↔ limit cfg query ≠ 65535 := by
  cases query with
  | get | getIfModified cached => exact not_congr limit_get.symm
  | set | delete => rfl

theorem limit_lt (hs : Stops cfg query) :
    (limit cfg query).toNat + 1 ≤ attemptLimit cfg query := by
  cases query with
  | get | getIfModified cached =>
    have hpos : cfg.getRetryNum.toNat ≠ 0 := fun h => hs (UInt16.toNat_inj.1 h)
    have hl : (limit cfg .get).toNat + 1 ≤
        max 1 ((numReplication + 1) * cfg.getRetryNum.toNat) := by
      rw [toNat_limit_get]
      unfold numReplication
      omega
    exact hl
  | set | delete => exact le_rfl

theorem Counts.bounded (hc : Counts hash cfg query s) (hs : Stops cfg query) :
    Bounded cfg query s := by
  have hlim := limit_lt hs
  refine ⟨?_, fun hr => ?_, fun hp => ?_⟩
  · have ha := hc.attempts
    by_cases hp : s.pending.phase = .over
    · have := hc.replies_le
      simp only [hp, reduceCtorEq, if_false] at ha
      omega
    · obtain ⟨hr, hl⟩ := hc.replies hp
      have := UInt16.le_iff_toNat_le.1 hl
      split_ifs at ha <;> omega
  · by_contra hp
    obtain ⟨hr', hl⟩ := hc.replies hp
    have := UInt16.le_iff_toNat_le.1 hl
    omega
  · have hlen := hc.sound.called
    rw [if_pos hp] at hlen
    obtain ⟨r, hr⟩ := List.length_eq_one_iff.1 hlen
    rw [hr, hc.called r (by simp [hr])]

/-! ## Without a limit -/

/-- A request that waits for a reply. -/
structure Waits (hash : Bytes → UInt64) (query : Query) (s : Attempting) : Prop where
  sound : s.pending.Sound hash
  calling : s.pending.phase = .calling
  same : s.pending.query = query

theorem Waits.serverFor (hw : Waits hash query s) (offset : ℕ) :
    ∃ a, serverFor s.pending.hs h offset = .ok a := by
  have he := hw.sound.server (.inl hw.calling)
  obtain ⟨seed, hseed⟩ := hw.sound.made he
  exact serverFor_ok hseed he

/-- A seed with one server is pushed, and the request is made. -/
theorem waits_submit (query : Query) : ∃ acts t,
    Machine.Run (step hash cfg h) Fails (init query) acts t ∧ Waits hash query t ∧
      t.attempts = 1 := by
  let hs := HashSpace.ofSeed hash Sample.oneSeed
  let p : Pending := ⟨query, hs, hs, .submitted, 0, []⟩
  have hpush : (Pending.init query).step hash cfg h (.hashSpacePush Sample.oneSeed Sample.oneSeed) =
      some p := rfl
  have hsound : p.Sound hash := (Pending.init_sound query).step hpush
  have hhs : p.hs = hs := by
    cases query <;> rfl
  have hcall : p.call h 0 = { p with phase := .calling } := by
    obtain ⟨a, ha⟩ : ∃ a, Gateway.serverFor p.hs h 0 = .ok a := serverFor_ok hhs (by rw [hhs]; rfl)
    unfold Pending.call
    rw [ha]
  have hsubmit : p.step hash cfg h .submit = some { p with phase := .calling } := by
    rw [← hcall]
    rfl
  refine ⟨[.hashSpacePush Sample.oneSeed Sample.oneSeed, .submit],
    ⟨{ p with phase := .calling }, 1, 0⟩, ?_, ⟨hsound.step hsubmit, rfl, rfl⟩, rfl⟩
  exact .cons trivial (step_eq_some.2 ⟨p, hpush, rfl⟩)
    (.cons trivial (step_eq_some.2 ⟨_, hsubmit, rfl⟩) (.nil _))

/-- The reply fails, and the request is made again. -/
theorem Waits.again (hw : Waits hash query s) (hl : limit cfg query = 65535) : ∃ acts t,
    Machine.Run (step hash cfg h) Fails s acts t ∧ Waits hash query t ∧
      t.attempts = s.attempts + 1 := by
  obtain rfl := hw.same
  have hle : s.pending.retried + 1 ≤ limit cfg s.pending.query := by
    rw [hl, UInt16.le_iff_toNat_le]
    exact Nat.le_of_lt_succ (s.pending.retried + 1).toNat_lt
  have hreply : s.pending.onReply cfg none =
      (s.pending.retried + 1, Pending.again (s.pending.retried + 1) s.pending.query) := by
    rw [Pending.onReply_fails rfl, if_pos hle]
  let p : Pending := { s.pending with retried := s.pending.retried + 1 }
  have hserver : ∀ offset, ∃ a, Gateway.serverFor p.hs h offset = .ok a := hw.serverFor
  rcases Pending.again_cases (s.pending.retried + 1) s.pending.query with he | ⟨offset, he⟩
  · have hout : s.pending.step hash cfg h (.outcome none) =
        some { p with phase := .scheduled 0 } := by
      simp only [Pending.step, hw.calling, if_true, hreply, he]
      rfl
    have hfire : ({ p with phase := .scheduled 0 } : Pending).step hash cfg h .fire =
        some { p with phase := .calling } := by
      obtain ⟨a, ha⟩ := hserver 0
      have ha' : Gateway.serverFor ({ p with phase := .scheduled 0 } : Pending).hs h 0 = .ok a := ha
      simp only [Pending.step, ha']
    refine ⟨[.outcome none, .fire], ⟨{ p with phase := .calling }, s.attempts + 1, s.replies + 1⟩,
      ?_, ⟨(hw.sound.step hout).step hfire, rfl, rfl⟩, rfl⟩
    exact .cons rfl (step_eq_some.2 ⟨_, hout, rfl⟩)
      (.cons trivial (step_eq_some.2 ⟨_, hfire, rfl⟩) (.nil _))
  · have hcall : p.call h offset = { p with phase := .calling } := by
      obtain ⟨a, ha⟩ := hserver offset
      unfold Pending.call
      rw [ha]
    have hout : s.pending.step hash cfg h (.outcome none) = some { p with phase := .calling } := by
      simp only [Pending.step, hw.calling, if_true, hreply, he]
      exact congrArg some hcall
    refine ⟨[.outcome none], ⟨{ p with phase := .calling }, s.attempts + 1, s.replies + 1⟩, ?_,
      ⟨hw.sound.step hout, rfl, rfl⟩, rfl⟩
    exact .cons rfl (step_eq_some.2 ⟨_, hout, rfl⟩) (.nil _)

/-- Where nothing ends the request, there are as many attempts as replies. -/
theorem attempts_unbounded (hl : limit cfg query = 65535) : ∀ k, ∃ acts t,
    Machine.Run (step hash cfg h) Fails (init query) acts t ∧ Waits hash query t ∧
      t.attempts = k + 1
  | 0 => waits_submit query
  | k + 1 => by
    obtain ⟨acts, t, hrun, hw, hk⟩ := attempts_unbounded hl k
    obtain ⟨acts', t', hrun', hw', hk'⟩ := hw.again (h := h) hl
    exact ⟨acts ++ acts', t', hrun.append hrun', hw', by rw [hk', hk]⟩

/-- Whatever fails, a request makes no more attempts than its number promises, and the user is
called back with an error when they have failed: just where `retry_incr` is given a number that its
counter can exceed. -/
theorem bounded_iff : (∀ hash h acts s, Machine.Run (step hash cfg h) Fails (init query) acts s →
    Bounded cfg query s) ↔ Stops cfg query := by
  constructor
  · intro hall
    by_contra hn
    have hl : limit cfg query = 65535 := by
      by_contra h
      exact hn (stops_iff.2 h)
    obtain ⟨acts, t, hrun, -, hk⟩ :=
      @attempts_unbounded Sample.zeroHash cfg 0 query hl (attemptLimit cfg query)
    have := (hall _ _ _ _ hrun).attempts_le
    omega
  · intro hs hash h acts s hrun
    exact (hrun.inv (fun _ _ _ hc hf ht => hc.step (stops_iff.1 hs) hf ht) counts_init).bounded hs

/-! A `Get` without retries whose first call times out: it is sent to the next replica. -/

instance : ∀ s a, Decidable (Fails s a)
  | _, .outcome _ => inferInstanceAs (Decidable (_ = _))
  | _, .hashSpacePush _ _ => instDecidableTrue
  | _, .submit => instDecidableTrue
  | _, .fire => instDecidableTrue

def noRetryActs : List Act :=
  [.hashSpacePush Sample.oneSeed Sample.oneSeed, .submit, .outcome none]

theorem noRetryActs_attempts : ((Machine.execIf (step Sample.zeroHash ⟨0, 1, 1⟩ 0) Fails (init .get)
    noRetryActs).any fun s => s.attempts = 2) = true := by
  decide +kernel

theorem not_bounded : ¬ ∀ cfg query hash h acts s,
    Machine.Run (step hash cfg h) Fails (init query) acts s → Bounded cfg query s := by
  intro hall
  obtain ⟨s, hs, hany⟩ := (Option.any_eq_true _ _).1 noRetryActs_attempts
  have hle := (hall ⟨0, 1, 1⟩ .get _ _ _ s (Machine.execIf_run hs)).attempts_le
  rw [of_decide_eq_true hany] at hle
  exact absurd hle (by decide)

end Attempting

end Kumofs.Gateway
