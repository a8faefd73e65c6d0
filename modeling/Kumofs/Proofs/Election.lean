import Kumofs.Proofs.Managers
import Kumofs.Sample

/-!
# One manager runs the replace

Of two partners the one of the smaller address is to start a replace, and the other delegates to
it. `ReplaceElection` has a branch that takes the request for a double one and sends no response:
the call that is never answered times out, and the manager that delegated starts a replace too.
Where no request comes to that branch, only the smaller address starts one.
-/

namespace Kumofs.Managers

variable {hash : Bytes → UInt64} {s t : Managers} {a : Act} {i j : Bool}

/-- The manager that starts a replace in a step of an election, if one does: by its own timer, for
its partner, or because its call to the partner failed. -/
def electionStart (hash : Bytes → UInt64) (s : Managers) (a : Act) : Option Bool :=
  match a with
  | .fire .. | .deliver .. | .electionFailed .. =>
    if copyStarts (s.handled hash a).2 = [] then none else some a.who
  | _ => none

/-- The managers that start a replace by election in a run. -/
def electors (hash : Bytes → UInt64) (s : Managers) : List Act → List Bool
  | [] => []
  | a :: as => (electionStart hash s a).toList ++ (step hash s a).elim [] (electors hash · as)

/-- At most one of the two managers does. -/
def OneElected (hash : Bytes → UInt64) (s : Managers) (as : List Act) : Prop :=
  ∀ i ∈ electors hash s as, ∀ j ∈ electors hash s as, i = j

instance (s : Managers) (as : List Act) : Decidable (OneElected hash s as) :=
  inferInstanceAs (Decidable (∀ i ∈ _, ∀ j ∈ _, _))

def requestOf (call : ℕ) : PartnerMsg → Bool
  | .replaceElection c _ _ => c = call
  | _ => false

def resultOf (call : ℕ) : PartnerMsg → Bool
  | .replaceElectionResult c _ => c = call
  | _ => false

/-- A call times out only when it was handled and no response to it was sent. -/
def TimesOut (s : Managers) : Act → Prop
  | .electionFailed i call =>
    (s.inbox (!i)).any (requestOf call) = false ∧ (s.inbox i).any (resultOf call) = false
  | _ => True

instance : DecidablePred s.TimesOut
  | .electionFailed .. => inferInstanceAs (Decidable (_ ∧ _))
  | .removeLocked .. | .connect .. | .lost .. | .invalidate .. | .fire .. | .partnerConnected ..
  | .deliver .. | .attach .. | .detach .. | .setAutoReplace .. | .startReplace .. | .copyEnd ..
  | .publish .. | .deleteEnd .. | .clockUpdate .. | .keepAlive .. | .time .. | .expire .. =>
    inferInstanceAs (Decidable True)

/-- The branch "double replace guard" of `ReplaceElection`. -/
def doubleReplaceGuard (m : Manager) (hsseed : Seed) : Bool :=
  !(hsseed.empty || hsseed.clocktime < m.whs.clocktime) &&
    (m.whs.clocktime < hsseed.clocktime || m.whs.nodes = hsseed.nodes)

/-- No request that is delivered comes to that branch. -/
def NoGuard (s : Managers) : Act → Prop
  | .deliver i k => ∀ msg ∈ (s.inbox i)[k]?,
    match msg with
    | .replaceElection _ hsseed _ => doubleReplaceGuard (s.mgr i) hsseed = false
    | _ => True
  | _ => True

instance : DecidablePred s.NoGuard
  | .deliver i k =>
    have : DecidablePred fun msg : PartnerMsg => (match msg with
        | .replaceElection _ hsseed _ => doubleReplaceGuard (s.mgr i) hsseed = false
        | _ => True) := fun
      | .replaceElection .. => inferInstanceAs (Decidable (_ = false))
      | .hashSpaceSync .. | .replaceElectionResult .. => inferInstanceAs (Decidable True)
    inferInstanceAs (Decidable (∀ msg ∈ (s.inbox i)[k]?, _))
  | .electionFailed .. | .removeLocked .. | .connect .. | .lost .. | .invalidate .. | .fire ..
  | .partnerConnected .. | .attach .. | .detach .. | .setAutoReplace .. | .startReplace ..
  | .copyEnd .. | .publish .. | .deleteEnd .. | .clockUpdate .. | .keepAlive .. | .time ..
  | .expire .. => inferInstanceAs (Decidable True)

/-- The two managers are each other's partner, and `i` has the greater address. -/
structure Partners (s : Managers) (i : Bool) : Prop where
  partner : ∀ j, (s.mgr j).partner = (s.mgr !j).addr
  connectable : (s.mgr i).partner.connectable
  greater : (s.mgr !i).addr < (s.mgr i).addr

/-- The greater address has a call for which a request or a result is in flight, and no result in
flight tells it to start; the smaller one has no call. -/
structure Delegates (s : Managers) (i : Bool) : Prop extends Partners s i where
  noCalls : (s.mgr !i).calls = []
  nodup : (s.mgr i).calls.Nodup
  fresh : ∀ call ∈ (s.mgr i).calls, call < (s.mgr i).nextCall
  noRequest : ∀ msg ∈ s.inbox i, ∀ call hsseed c, msg ≠ .replaceElection call hsseed c
  accepted : ∀ msg ∈ s.inbox i, ∀ call, msg ≠ .replaceElectionResult call none
  pending : ∀ call ∈ (s.mgr i).calls,
    (s.inbox (!i)).any (requestOf call) ∨ (s.inbox i).any (resultOf call)

theorem Partners.of_stepped (h : Partners s i) (ht : Stepped hash s a t) : Partners t i := by
  refine ⟨fun j => ?_, ?_, ?_⟩
  · rw [(ht.addr j).2, (ht.addr (!j)).1]
    exact h.partner j
  · rw [(ht.addr i).2]
    exact h.connectable
  · rw [(ht.addr i).1, (ht.addr (!i)).1]
    exact h.greater

theorem Partners.not_less (h : Partners s i) : ¬ (s.mgr !i).partner < (s.mgr !i).addr := by
  rw [h.partner, Bool.not_not]
  exact not_lt.2 h.greater.le

/-- The smaller address answers every request that does not come to the guard, and with `true`. -/
theorem reply_of_noGuard (h : Partners s i) {call : ℕ} {hsseed : Seed} {c : UInt32}
    (hg : doubleReplaceGuard (s.mgr !i) hsseed = false) :
    s.reply hash (!i) (.replaceElection call hsseed c) =
      [.replaceElectionResult call (some true)] := by
  have hp : ¬ (s.mgr !!i).addr ≠ (s.mgr !i).partner := not_not.2 (h.partner (!i)).symm
  have hw : ((s.mgr !i).clockUpdate c).whs = (s.mgr !i).whs := rfl
  simp only [reply, if_neg hp, Manager.onReplaceElection, hw]
  simp only [doubleReplaceGuard, Bool.and_eq_false_iff, Bool.not_eq_eq_eq_not, Bool.not_false,
    Bool.or_eq_true, decide_eq_true_eq, Bool.or_eq_false_iff, decide_eq_false_iff_not] at hg
  by_cases hobs : hsseed.empty = true ∨ hsseed.clocktime < (s.mgr !i).whs.clocktime
  · rw [if_pos hobs]
    rfl
  · rw [if_neg hobs, if_neg (not_or.2 (hg.resolve_left hobs)), if_neg]
    · rfl
    · exact h.not_less

/-- A result that is delivered for a call that waits ends it. -/
theorem handled_result {k call : ℕ} {res : Option Bool}
    (hk : (s.inbox i)[k]? = some (.replaceElectionResult call res))
    (hc : call ∈ (s.mgr i).calls) :
    s.handled hash (.deliver i k) = (s.mgr i).onElectionResult call res := by
  simp only [handled, hk, Option.elim, handle, if_pos hc]

theorem exists_resultOf {msgs : List PartnerMsg} {call : ℕ} (h : msgs.any (resultOf call)) :
    ∃ res, .replaceElectionResult call res ∈ msgs := by
  obtain ⟨msg, hm, hc⟩ := List.any_eq_true.1 h
  cases msg with
  | replaceElectionResult c res =>
    have hc : c = call := by simpa [resultOf] using hc
    exact ⟨res, hc ▸ hm⟩
  | _ => exact absurd hc (by simp [resultOf])

theorem exists_requestOf {msgs : List PartnerMsg} {call : ℕ} (h : msgs.any (requestOf call)) :
    ∃ hsseed c, .replaceElection call hsseed c ∈ msgs := by
  obtain ⟨msg, hm, hc⟩ := List.any_eq_true.1 h
  cases msg with
  | replaceElection c hsseed adjustClock =>
    have hc : c = call := by simpa [requestOf] using hc
    exact ⟨hsseed, adjustClock, hc ▸ hm⟩
  | _ => exact absurd hc (by simp [requestOf])

/-! ## Steps of the greater address -/

/-- A call keeps what it waits for, since the result that is delivered ends its call. -/
theorem Delegates.pending_self (h : Delegates s a.who) (ht : Stepped hash s a t) {call : ℕ}
    (hc : call ∈ (s.mgr a.who).calls) (hct : call ∈ (t.mgr a.who).calls) :
    (t.inbox (!a.who)).any (requestOf call) ∨ (t.inbox a.who).any (resultOf call) := by
  rcases h.pending call hc with hreq | hres
  · left
    rw [ht.inboxOther, List.any_append, hreq]
    rfl
  · obtain ⟨res, hmem⟩ := exists_resultOf hres
    rcases left_or_delivered hmem with hl | ⟨k, ha, hk⟩
    · right
      rw [ht.inbox]
      exact List.any_eq_true.2 ⟨_, hl, by simp [resultOf]⟩
    · have hh : s.handled hash a = (s.mgr a.who).onElectionResult call res := by
        rw [ha]
        exact handled_result hk hc
      rw [ht.mgr, hh, onElectionResult_quiet.calls] at hct
      exact absurd rfl (h.nodup.mem_erase_iff.1 hct).1

theorem Delegates.calls_self (h : Delegates s a.who) (ht : Stepped hash s a t) :
    (t.mgr a.who).calls.Nodup ∧ (∀ call ∈ (t.mgr a.who).calls, call < (t.mgr a.who).nextCall) ∧
      ∀ call ∈ (t.mgr a.who).calls,
        (t.inbox (!a.who)).any (requestOf call) ∨ (t.inbox a.who).any (resultOf call) := by
  rcases handled_cases hash s a with hq | ⟨cas, -, -, -, r, hq, hr⟩ | ⟨call, res, hr, -⟩
  · have hc : (t.mgr a.who).calls = (s.mgr a.who).calls := by rw [ht.mgr, hq.calls]
    refine ⟨hc ▸ h.nodup, fun call hm => ?_, fun call hm => h.pending_self ht (hc ▸ hm) hm⟩
    rw [ht.mgr, hq.nextCall]
    exact h.fresh call (hc ▸ hm)
  · have hc : (t.mgr a.who).calls = (s.mgr a.who).nextCall :: (s.mgr a.who).calls := by
      rw [ht.mgr, hr, ← hq.calls, ← hq.nextCall]
      rfl
    have hn : (t.mgr a.who).nextCall = (s.mgr a.who).nextCall + 1 := by
      rw [ht.mgr, hr, ← hq.nextCall]
      rfl
    have hfresh : (s.mgr a.who).nextCall ∉ (s.mgr a.who).calls := fun hm =>
      Nat.lt_irrefl _ (h.fresh _ hm)
    refine ⟨hc ▸ List.nodup_cons.2 ⟨hfresh, h.nodup⟩, fun call hm => ?_, fun call hm => ?_⟩
    · rw [hc] at hm
      rw [hn]
      rcases List.mem_cons.1 hm with rfl | hm
      · exact Nat.lt_succ_self _
      · exact Nat.lt_succ_of_lt (h.fresh call hm)
    · have hm' := hm
      rw [hc] at hm'
      rcases List.mem_cons.1 hm' with rfl | hm'
      · left
        rw [ht.inboxOther, if_pos (h.partner _), List.any_append, List.any_append, hr,
          List.any_eq_true.2 ⟨.replaceElection r.1.nextCall r.1.whs.seed r.1.clock.clockIncr.1,
            mem_partnerMsgs.2 ?_, ?_⟩]
        · simp
        · exact List.mem_append_right _ List.mem_cons_self
        · simp [requestOf, hq.nextCall]
      · exact h.pending_self ht hm' hm
  · have hc : (t.mgr a.who).calls = (s.mgr a.who).calls.erase call := by
      rw [ht.mgr, hr, onElectionResult_quiet.calls]
    have hsub : ∀ {c}, c ∈ (t.mgr a.who).calls → c ∈ (s.mgr a.who).calls := fun hm =>
      List.mem_of_mem_erase (hc ▸ hm)
    refine ⟨hc ▸ h.nodup.erase call, fun c hm => ?_, fun c hm => h.pending_self ht (hsub hm) hm⟩
    rw [ht.mgr, hr, onElectionResult_quiet.nextCall]
    exact h.fresh c (hsub hm)

theorem Delegates.of_self (h : Delegates s a.who) (ht : Stepped hash s a t) :
    Delegates t a.who := by
  obtain ⟨h1, h2, h3⟩ := h.calls_self ht
  have hin : ∀ {msg}, msg ∈ t.inbox a.who → msg ∈ s.inbox a.who := fun hm =>
    mem_inbox_of_left (ht.inbox ▸ hm)
  refine ⟨h.toPartners.of_stepped ht, ?_, h1, h2, ?_, ?_, h3⟩
  · rw [ht.mgrOther]
    exact h.noCalls
  · exact fun msg hm => h.noRequest msg (hin hm)
  · exact fun msg hm => h.accepted msg (hin hm)

/-! ## Steps of the smaller address -/

theorem Delegates.handled_other (h : Delegates s (!a.who)) :
    Manager.Quiet (s.mgr a.who) (s.handled hash a) ∨
      ∃ call res, s.handled hash a = (s.mgr a.who).onElectionResult call res := by
  rcases handled_cases hash s a with hq | ⟨cas, -, hp, -⟩ | ⟨call, res, hr, -⟩
  · exact .inl hq
  · have hn := h.toPartners.not_less
    rw [Bool.not_not] at hn
    exact absurd hp hn
  · exact .inr ⟨call, res, hr⟩

/-- The smaller address sends no request. -/
theorem Delegates.syncs_other (h : Delegates s (!a.who)) {msg : PartnerMsg}
    (hm : msg ∈ partnerMsgs (s.handled hash a).2) :
    ∃ wseed rseed c, msg = .hashSpaceSync wseed rseed c := by
  rcases h.handled_other with hq | ⟨call, res, hr⟩
  · exact hq.syncs msg (mem_partnerMsgs.1 hm)
  · rw [hr] at hm
    exact onElectionResult_quiet.syncs msg (mem_partnerMsgs.1 hm)

theorem Delegates.noCalls_other (h : Delegates s (!a.who)) (ht : Stepped hash s a t) :
    (t.mgr a.who).calls = [] := by
  have hc : (s.mgr a.who).calls = [] := by
    have := h.noCalls
    rwa [Bool.not_not] at this
  rw [ht.mgr]
  rcases @Delegates.handled_other hash s a h with hq | ⟨call, res, hr⟩
  · rw [hq.calls, hc]
  · rw [hr, onElectionResult_quiet.calls]
    show (s.mgr a.who).calls.erase call = []
    rw [hc]
    rfl

/-- Its responses are all `true`. -/
theorem Delegates.replied_other (h : Delegates s (!a.who)) (hg : NoGuard s a) {msg : PartnerMsg}
    (hm : msg ∈ s.replied hash a) : ∃ call, msg = .replaceElectionResult call (some true) := by
  cases a with
  | deliver i k =>
    simp only [replied] at hm
    cases hk : (s.inbox i)[k]? with
    | none => simp [hk] at hm
    | some m =>
      simp only [hk, Option.elim] at hm
      cases m with
      | replaceElection call hsseed c =>
        have hb : doubleReplaceGuard (s.mgr i) hsseed = false := hg _ hk
        have hr := @reply_of_noGuard hash s _ h.toPartners call hsseed c
          (by rw [Act.who, Bool.not_not]; exact hb)
        rw [Act.who, Bool.not_not] at hr
        rw [hr] at hm
        exact ⟨call, List.mem_singleton.1 hm⟩
      | _ => exact absurd hm List.not_mem_nil
  | _ => exact absurd hm List.not_mem_nil

/-- A request is answered when it is delivered. -/
theorem Delegates.pending_other (h : Delegates s (!a.who)) (hg : NoGuard s a)
    (ht : Stepped hash s a t) {call : ℕ} (hc : call ∈ (s.mgr !a.who).calls) :
    (t.inbox (!!a.who)).any (requestOf call) ∨ (t.inbox (!a.who)).any (resultOf call) := by
  rcases h.pending call hc with hreq | hres
  · rw [Bool.not_not] at hreq ⊢
    obtain ⟨hsseed, c, hmem⟩ := exists_requestOf hreq
    rcases left_or_delivered hmem with hl | ⟨k, ha, hk⟩
    · left
      rw [ht.inbox]
      exact List.any_eq_true.2 ⟨_, hl, by simp [requestOf]⟩
    · right
      have hb : doubleReplaceGuard (s.mgr a.who) hsseed = false := by
        rw [ha] at hg
        exact hg _ hk
      have hr := @reply_of_noGuard hash s _ h.toPartners call hsseed c
        (by rw [Bool.not_not]; exact hb)
      rw [Bool.not_not] at hr
      have hrep : s.replied hash a = [.replaceElectionResult call (some true)] := by
        rw [ha]
        simp only [replied, hk, Option.elim, hr]
      rw [ht.inboxOther, List.any_append, List.any_append, hrep]
      simp [resultOf]
  · right
    rw [ht.inboxOther, List.any_append, hres]
    rfl

theorem Delegates.of_other (h : Delegates s (!a.who)) (hg : NoGuard s a)
    (ht : Stepped hash s a t) : Delegates t (!a.who) := by
  have hnew : ∀ {msg}, msg ∈ t.inbox (!a.who) → msg ∈ s.inbox (!a.who) ∨
      (∃ wseed rseed c, msg = .hashSpaceSync wseed rseed c) ∨
      ∃ call, msg = .replaceElectionResult call (some true) := by
    intro msg hm
    rcases ht.mem_inbox hm with hm | ⟨-, hm | hm⟩
    · exact .inl hm
    · exact .inr (.inl (h.syncs_other hm))
    · exact .inr (.inr (h.replied_other hg hm))
  refine ⟨h.toPartners.of_stepped ht, ?_, ?_, ?_, ?_, ?_, ?_⟩
  · rw [Bool.not_not]
    exact h.noCalls_other ht
  · rw [ht.mgrOther]
    exact h.nodup
  · rw [ht.mgrOther]
    exact h.fresh
  · intro msg hm call hsseed c
    rcases hnew hm with hm | ⟨wseed, rseed, c', rfl⟩ | ⟨call', rfl⟩
    · exact h.noRequest msg hm call hsseed c
    · simp
    · simp
  · intro msg hm call
    rcases hnew hm with hm | ⟨wseed, rseed, c', rfl⟩ | ⟨call', rfl⟩
    · exact h.accepted msg hm call
    · simp
    · simp
  · exact fun call hc => h.pending_other hg ht (ht.mgrOther ▸ hc)

/-! ## Runs -/

theorem Delegates.of_step (h : Delegates s i) (hg : NoGuard s a) (ht : step hash s a = some t) :
    Delegates t i := by
  have hst := stepped_of_step ht
  rcases who_or a i with rfl | rfl
  · exact h.of_self hst
  · exact h.of_other hg hst

theorem Delegates.calls_of_failed {call : ℕ} (h : Delegates s i)
    (hg : s.TimesOut (.electionFailed i call)) : call ∉ (s.mgr i).calls := by
  intro hc
  obtain ⟨hreq, hres⟩ := hg
  rcases h.pending call hc with hp | hp
  · rw [hreq] at hp
    cases hp
  · rw [hres] at hp
    cases hp

/-- The greater address does not start a replace. -/
theorem Delegates.copyStarts_eq (h : Delegates s a.who) (hg : s.TimesOut a)
    (ht : step hash s a = some t) (he : electionStart hash s a ≠ none) :
    copyStarts (s.handled hash a).2 = [] := by
  cases a with
  | fire i cas =>
    simp only [handled, Manager.casCheckedReplaceElection]
    split_ifs
    · rcases replaceElection_cases hash
        { s.mgr i with timers := (s.mgr i).timers.erase cas } with ⟨-, hn⟩ | ⟨-, hc, -⟩
      · refine absurd ⟨h.connectable, ?_⟩ hn
        exact lt_of_eq_of_lt (h.partner i) h.greater
      · exact hc
    · rfl
  | deliver i k =>
    simp only [handled]
    cases hk : (s.inbox i)[k]? with
    | none => rfl
    | some msg =>
      have hm := List.mem_of_getElem? hk
      cases msg with
      | hashSpaceSync wseed rseed adjustClock =>
        simp only [Option.elim, handle]
        split_ifs
        · rfl
        · rfl
      | replaceElection call hsseed adjustClock =>
        exact absurd rfl (h.noRequest _ hm call hsseed adjustClock)
      | replaceElectionResult call res =>
        simp only [Option.elim, handle]
        split_ifs
        · have hres : res ≠ none := fun e => h.accepted _ hm call (e ▸ rfl)
          simp only [Manager.onElectionResult, if_neg hres]
          rfl
        · rfl
  | electionFailed i call =>
    simp only [step] at ht
    split_ifs at ht with hc
    exact absurd hc (h.calls_of_failed hg)
  | _ => exact absurd rfl he

theorem Delegates.electionStart_eq (h : Delegates s i) (hg : s.TimesOut a)
    (ht : step hash s a = some t) (hj : electionStart hash s a = some j) : j = !i := by
  have hw : j = a.who := by
    unfold electionStart at hj
    split at hj <;> simp_all
  rcases who_or a i with rfl | rfl
  · have hc := h.copyStarts_eq hg ht (by simp [hj])
    unfold electionStart at hj
    split at hj
    · simp [hc] at hj
    · simp [hc] at hj
    · simp [hc] at hj
    · cases hj
  · rw [Bool.not_not]
    exact hw

theorem Delegates.electors_eq {as : List Act} (h : Delegates s i)
    (hr : Machine.Run (step hash) (fun s a => s.TimesOut a ∧ s.NoGuard a) s as t) :
    ∀ j ∈ electors hash s as, j = !i := by
  induction hr with
  | nil => exact fun j hj => absurd hj List.not_mem_nil
  | cons hg hst _ ih =>
    intro j hj
    unfold electors at hj
    rw [hst] at hj
    rcases List.mem_append.1 hj with hj | hj
    · exact h.electionStart_eq hg.1 hst (Option.mem_toList.1 hj)
    · exact ih (h.of_step hg.2 hst) j hj

theorem Delegates.init {addr partner : Bool → Address} {clock : Bool → ClockLogic}
    {auto : Bool → Bool} (hp : ∀ i, partner i = addr (!i)) (hconn : ∀ i, (addr i).connectable)
    (hi : addr (!i) < addr i) : Delegates (init addr partner clock auto) i where
  partner := hp
  connectable := (congrArg _ (hp i)).trans (hconn _)
  greater := hi
  noCalls := rfl
  nodup := List.nodup_nil
  fresh := fun _ h => absurd h List.not_mem_nil
  noRequest := fun _ h => absurd h List.not_mem_nil
  accepted := fun _ h => absurd h List.not_mem_nil
  pending := fun _ h => absurd h List.not_mem_nil

/-- Two managers with addresses of their own, each the other's partner: in every run in which a
call times out only for want of a response and no request comes to the guard, one of them at most
starts a replace by election. -/
theorem oneElected_of_run {addr partner : Bool → Address} {clock : Bool → ClockLogic}
    {auto : Bool → Bool} {as : List Act} (hp : ∀ i, partner i = addr (!i))
    (hconn : ∀ i, (addr i).connectable) (hne : addr false ≠ addr true)
    (h : Machine.Run (step hash) (fun s a => s.TimesOut a ∧ s.NoGuard a)
      (init addr partner clock auto) as s) :
    OneElected hash (init addr partner clock auto) as := by
  obtain ⟨i, hi⟩ : ∃ i, addr (!i) < addr i := by
    rcases lt_or_gt_of_ne hne with hlt | hlt
    · exact ⟨true, hlt⟩
    · exact ⟨false, hlt⟩
  have he := (Delegates.init hp hconn hi).electors_eq h
  exact fun j hj k hk => (he j hj).trans (he k hk).symm

/-! A server comes to both managers. Where the hash space of the one that delegates is older than
the other's, the request is obsolete; where it has come before the request, the request is not
answered. -/

section Sample

open Sample

def obsoleteRun : List Act :=
  [.connect false (svr 1), .connect true (svr 1), .keepAlive false, .fire true 1, .fire false 1,
    .deliver false 2, .deliver true 2]

def unansweredRun : List Act :=
  [.connect false (svr 1), .connect true (svr 1), .fire true 1, .deliver false 0, .deliver false 0,
    .deliver false 0, .fire false 1, .electionFailed true 0]

theorem oneElected_obsoleteRun : ∃ s,
    Machine.Run (step zeroHash) (fun s a => s.TimesOut a ∧ s.NoGuard a) pair obsoleteRun s ∧
      electors zeroHash pair obsoleteRun = [false] ∧ OneElected zeroHash pair obsoleteRun := by
  have h : Machine.Run (step zeroHash) (fun s a => s.TimesOut a ∧ s.NoGuard a) pair obsoleteRun _ :=
    Machine.execIf_run rfl
  exact ⟨_, h, by decide, oneElected_of_run (by decide) (by decide) (by decide) h⟩

theorem not_oneElected_unansweredRun : ∃ s,
    Machine.Run (step zeroHash) TimesOut pair unansweredRun s ∧
      ¬ OneElected zeroHash pair unansweredRun := by
  refine ⟨_, Machine.execIf_run rfl, ?_⟩
  decide

end Sample

end Kumofs.Managers
