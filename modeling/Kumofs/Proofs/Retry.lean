import Kumofs.Proofs.Swap
import Kumofs.System.Retry

/-!
# When a failed `CAS` did nothing

A server that has put the value of a `CAS` answers null when a replica of whs fails, and the
gateway sends the request again. The comparison then finds the value of the attempt before it, and
the caller is told that the `CAS` failed. Where only such attempts are sent again as have ended
without putting their value, none has put it when the caller is told so.
-/

namespace Kumofs

open Machine Server

namespace Server.Handler

variable {key : DBKey} {s s' : State} {h h' : Handler} {o : Option ℕ}

/-- It has ended, and has not put its value. -/
def Vain (h : Handler) : Prop := (h.pc = .done ∨ h.pc = .refused) ∧ h.wrote = false

instance (h : Handler) : Decidable h.Vain := by unfold Vain; infer_instance

theorem Moves.vain (m : Moves key s h s' h' o) (v : h.Vain) : h'.Vain := by
  cases m with
  | ended hp => exact v
  | refused hp | computed hp | stampedSet hp | stamped hp | idle hp | casDone hp | casFailed hp
  | deleteDone hp | deleteNothing hp | deleteElsewhere hp | send hp | written hp | casSent hp
  | deleteSent hp =>
    have hv := v.1
    simp [hp] at hv

theorem Reports.vain_of_failed (r : h.Reports) (hm : .bool false ∈ h.responses) : h.Vain :=
  ⟨.inl (r.failed.1 hm).1, (r.failed.1 hm).2⟩

theorem Reports.vain_of_error (r : h.Reports) (w : h.Wf) {e : String}
    (hm : .error e ∈ h.responses) : h.Vain := by
  have hp := r.refused e hm
  exact ⟨.inr hp, (w.early (.inr (.inr (.inr hp)))).2⟩

end Server.Handler

namespace Swapping

variable {cfg : StoreNet.Config} {s s' : Swapping} {act : Act}

theorem Becomes.vain {g g' : Handler} (b : Becomes cfg g g') (v : g.Vain) : g'.Vain := by
  cases b with
  | moved m => exact m.vain v
  | @answered c call res active hc hst =>
    obtain ⟨hpc, hwrote, -⟩ := Handler.onReply_same g (cfg.retryNum g.op) c call res active
    unfold Handler.Vain
    rw [hpc, hwrote]
    exact v

/-- A handler stays in its place. -/
theorem step_handler (hs : s.step cfg act = some s') {i : ℕ} {g : Handler}
    (hi : s.handlers[i]? = some g) :
    ∃ g', s'.handlers[i]? = some g' ∧ (g' = g ∨ Becomes cfg g g') := by
  have hlen := (List.getElem?_eq_some_iff.1 hi).1
  rcases step_handlers hs with he | ⟨a, op, he⟩ | ⟨j, k, k', hj, b, he⟩
  · exact ⟨g, he ▸ hi, .inl rfl⟩
  · exact ⟨g, by rw [he, List.getElem?_append_left hlen, hi], .inl rfl⟩
  · by_cases hij : j = i
    · subst hij
      obtain rfl : k = g := Option.some.inj (hj.symm.trans hi)
      exact ⟨k', by rw [he, List.getElem?_set_self hlen], .inr b⟩
    · exact ⟨g, by rw [he, List.getElem?_set_ne hij, hi], .inl rfl⟩

end Swapping

namespace Retrying

variable {cfg : Config} {s s' : Retrying} {act : Act}

/-- The gateway does not send a request again after a null response, nor after a call without one
that has reached a server, unless its handler has ended in vain; and a call given up does not reach
a server later, unless the caller has been told otherwise. -/
def Guard (cfg : Config) (s : Retrying) : Act → Prop
  | .reply => ∀ h ∈ s.handler,
    h.responses.getLast? = some .null → ¬ s.retried + 1 ≤ cfg.gatewayRetryNum
  | .lose => ∀ h ∈ s.handler, h.Vain ∨ ¬ s.retried + 1 ≤ cfg.gatewayRetryNum
  | .arriveLate _ _ => s.result ≠ none ∧ s.result ≠ some .casFailed
  | _ => True

instance (cfg : Config) (s : Retrying) : ∀ act, Decidable (s.Guard cfg act)
  | .reply => by unfold Guard; infer_instance
  | .lose => by unfold Guard; infer_instance
  | .arriveLate .. => by unfold Guard; infer_instance
  | .net _ | .call | .arrive _ => isTrue trivial

/-- The attempt, if it has reached a server, has ended in vain. -/
def VainCall (s : Retrying) (call : Option ℕ) : Prop :=
  ∀ i ∈ call, ∃ h, s.net.handlers[i]? = some h ∧ h.Vain

structure Inv (cfg : Config) (s : Retrying) : Prop where
  sane : s.net.Sane
  current : ∀ i, s.current = some (some i) →
    ∃ h, s.net.handlers[i]? = some h ∧ h.op = .cas cfg.val
  past : s.result = none ∨ s.result = some .casFailed → ∀ call ∈ s.past, s.VainCall call
  waits : s.result ≠ none → s.current = none

theorem handler_eq_some {g : Handler} : s.handler = some g ↔
    ∃ i, s.current = some (some i) ∧ s.net.handlers[i]? = some g := by
  simp [handler, Option.bind_eq_some_iff, Option.join_eq_some_iff]

theorem VainCall.of_step {n : Swapping} {a : Swapping.Act} {call : Option ℕ}
    (v : s.VainCall call) (hs : s.net.step cfg.toConfig a = some n)
    (hn : s'.net = n) : s'.VainCall call := by
  intro i hi
  obtain ⟨g, hg, hv⟩ := v i hi
  obtain ⟨g', hg', rfl | b⟩ := Swapping.step_handler hs hg
  · exact ⟨g', hn ▸ hg', hv⟩
  · exact ⟨g', hn ▸ hg', b.vain hv⟩

/-- A step of the coordinators, which may be the arrival of a call. -/
theorem Inv.net (h : Inv cfg s) {n : Swapping} {a : Swapping.Act}
    (hs : s.net.step cfg.toConfig a = some n) : Inv cfg { s with net := n } where
  sane := h.sane.of_step hs
  current i hi := by
    obtain ⟨g, hg, hop⟩ := h.current i hi
    obtain ⟨g', hg', rfl | b⟩ := Swapping.step_handler hs hg
    · exact ⟨g', hg', hop⟩
    · exact ⟨g', hg', (b.op (h.sane.wf g (List.mem_of_getElem? hg))).trans hop⟩
  past hr call hc := (h.past hr call hc).of_step hs rfl
  waits := h.waits

/-- The gateway goes on after a call in vain; after any other it tells its caller something else
than that the `CAS` failed. -/
theorem Inv.callback (h : Inv cfg s) {call : Option ℕ} (hcur : s.current = some call)
    {res : Option Response}
    (hres : s.VainCall call ∨ ∃ x, x ≠ .casFailed ∧
      (Gateway.resSet cfg.gatewayRetryNum s.retried res).2 = .report x) :
    Inv cfg (s.callback cfg res) := by
  have hnone : s.result = none := by
    by_contra hr
    simp [h.waits hr] at hcur
  refine ⟨h.sane, fun _ hi => (by cases hi), fun hr c hc => ?_, fun _ => rfl⟩
  rcases List.mem_append.1 hc with hc | hc
  · exact h.past (.inl hnone) c hc
  · rcases hres with hv | ⟨x, hx, hrep⟩
    · obtain rfl : c = call := by simpa [hcur, eq_comm] using hc
      exact hv
    · simp only [Retrying.callback, hrep, Option.some.injEq] at hr
      rcases hr with hr | hr
      · cases hr
      · exact absurd hr hx

theorem Inv.reply (h : Inv cfg s) {g : Handler} {r : Response} (hh : s.handler = some g)
    (hr : g.responses.getLast? = some r)
    (hnull : r = .null → ¬ s.retried + 1 ≤ cfg.gatewayRetryNum) :
    Inv cfg (s.callback cfg (some r)) := by
  obtain ⟨i, hcur, hg⟩ := handler_eq_some.1 hh
  refine h.callback hcur ?_
  have hmem := List.mem_of_getLast? hr
  have hin := List.mem_of_getElem? hg
  obtain ⟨k, hk, hop⟩ := h.current i hcur
  obtain rfl : g = k := Option.some.inj (hg.symm.trans hk)
  have hrep := h.sane.reports g hin ⟨_, hop⟩
  have hvain : g.Vain → s.VainCall (some i) := fun hv j hj => by
    obtain rfl : i = j := Option.some.inj hj
    exact ⟨g, hg, hv⟩
  cases r with
  | clocktime ct => exact .inr ⟨.stored ct, by simp, rfl⟩
  | bool b =>
    cases b with
    | true => exact .inr ⟨.error, by simp, rfl⟩
    | false => exact .inl (hvain (hrep.vain_of_failed hmem))
  | null => exact .inr ⟨.error, by simp, by simp [Gateway.resSet, hnull rfl]⟩
  | error e => exact .inl (hvain (hrep.vain_of_error (h.sane.wf g hin) hmem))

theorem Inv.of_step (h : Inv cfg s) (hgd : s.Guard cfg act) (hs : s.step cfg act = some s') :
    Inv cfg s' := by
  cases act with
  | net a =>
    obtain ⟨n, hn, rfl⟩ := Option.map_eq_some_iff.1 hs
    exact h.net hn
  | call =>
    simp only [step] at hs
    split_ifs at hs with hc
    cases hs
    exact ⟨h.sane, fun i hi => by simp at hi, h.past, fun hr => absurd hc.2 hr⟩
  | arrive a =>
    simp only [step] at hs
    split_ifs at hs with hc
    obtain ⟨n, hn, rfl⟩ := Option.map_eq_some_iff.1 hs
    have hnet := h.net hn
    refine ⟨hnet.sane, fun i hi => ?_, hnet.past, fun hr => ?_⟩
    · cases hn
      obtain rfl : s.net.handlers.length = i := by simpa using hi
      exact ⟨_, List.getElem?_concat_length, rfl⟩
    · simp [h.waits hr] at hc
  | arriveLate k a =>
    simp only [step] at hs
    split_ifs at hs with hc
    obtain ⟨n, hn, rfl⟩ := Option.map_eq_some_iff.1 hs
    have hnet := h.net hn
    refine ⟨hnet.sane, hnet.current, fun hr => ?_, hnet.waits⟩
    rcases hr with hr | hr
    · exact absurd hr hgd.1
    · exact absurd hr hgd.2
  | reply =>
    obtain ⟨g, hg, hs⟩ := Option.bind_eq_some_iff.1 hs
    obtain ⟨r, hr, rfl⟩ := Option.map_eq_some_iff.1 hs
    exact h.reply hg hr fun hn => hgd g hg (hn ▸ hr)
  | lose =>
    obtain ⟨call, hcur, rfl⟩ := Option.map_eq_some_iff.1 hs
    refine h.callback hcur ?_
    by_cases hleft : s.retried + 1 ≤ cfg.gatewayRetryNum
    · refine .inl fun i hi => ?_
      obtain rfl : call = some i := hi
      obtain ⟨g, hg, -⟩ := h.current i hcur
      have hv := hgd g (handler_eq_some.2 ⟨i, hcur, hg⟩)
      exact ⟨g, hg, hv.resolve_right (not_not.2 hleft)⟩
    · exact .inr ⟨.error, by simp, by simp [Gateway.resSet, hleft]⟩

theorem Inv.failedCleanly (h : Inv cfg s) : s.FailedCleanly := by
  intro hr i hi g hg
  have hcur := h.waits (by simp [hr])
  simp only [attempts, hcur, Option.toList_none, List.append_nil, List.reduceOption_mem_iff] at hi
  obtain ⟨k, hk, hv⟩ := h.past (.inr hr) (some i) hi i rfl
  obtain rfl : k = g := Option.some.inj (hk.symm.trans hg)
  exact hv.2

/-- In runs in which the gateway sends a request again only after an attempt that ended in vain or
never reaches a server, a `CAS` that it reports as failed has put nothing. -/
theorem failedCleanly_of_run {srv : Address → State} {acts : List Act}
    (h : Run (step cfg) (Guard cfg) (Retrying.init cfg srv) acts s) : s.FailedCleanly := by
  have hinit : Inv cfg (Retrying.init cfg srv) :=
    ⟨.init cfg.toConfig srv, fun _ hi => (by cases hi), fun _ _ hm => absurd hm List.not_mem_nil,
      fun _ => rfl⟩
  exact (h.inv (fun _ _ _ hI hg hs => hI.of_step hg hs) hinit).failedCleanly

section Sample

open Sample StoreNet

def retryCfg : Config :=
  { sampleCfg with val := ⟨entryVal, meta_le_entryVal⟩, gatewayRetryNum := 3 }

/-- Server 1 is the only one. A `Set` and a `CAS` of another caller, which compares with its
clocktime as the request does; the first call of the request is lost on the way. -/
def vainRun : List Act :=
  [.net (.request (svr 1) (.set retryCfg.val false)), .net (.step 0), .net (.step 0),
    .net (.step 0), .net (.request (svr 1) (.cas retryCfg.val)), .net (.step 1), .net (.step 1),
    .net (.step 1), .net (.step 1), .call, .lose, .call, .arrive (svr 1), .net (.step 2),
    .net (.step 2), .net (.step 2), .reply]

theorem vainRun_result : ((execIf (step retryCfg) (Guard retryCfg)
    (Retrying.init retryCfg fun _ => emptyServer oneSeed oneSeed) vainRun).any fun s =>
      decide (s.result = some .casFailed ∧ s.attempts = [2])) = true := by
  decide +kernel

theorem vainRun_failedCleanly : ∃ s : Retrying, Run (step retryCfg) (Guard retryCfg)
    (Retrying.init retryCfg fun _ => emptyServer oneSeed oneSeed) vainRun s ∧
      (s.result = some .casFailed ∧ s.attempts = [2]) ∧ s.FailedCleanly := by
  obtain ⟨s, hs, hr⟩ := (Option.any_eq_true _ _).1 vainRun_result
  have hrun := execIf_run hs
  exact ⟨s, hrun, of_decide_eq_true hr, failedCleanly_of_run hrun⟩

/-- Server 2 is the replica. After a `Set` the request is applied on server 1, whose call to
server 2 fails. -/
def nullRun : List Act :=
  [.net (.request (svr 1) (.set retryCfg.val false)), .net (.step 0), .net (.step 0),
    .net (.step 0), .net (.step 0), .net (.reply 0 0 (.ok true) true), .call, .arrive (svr 1),
    .net (.step 1), .net (.step 1), .net (.step 1), .net (.step 1), .net (.step 1),
    .net (.reply 1 0 (.error "timeout") false), .reply, .call, .arrive (svr 1), .net (.step 2),
    .net (.step 2), .net (.step 2), .reply]

theorem nullRun_result : ((exec (step retryCfg)
    (Retrying.init retryCfg fun _ => emptyServer twoSeed twoSeed) nullRun).any fun s =>
      decide (s.result = some .casFailed) && decide (1 ∈ s.attempts) &&
        s.net.handlers[1]?.any fun h => h.wrote) = true := by
  decide +kernel

/-- Its second attempt fails for the value of the first. -/
theorem nullRun_not_failedCleanly : ∃ s : Retrying, Run (step retryCfg) Free
    (Retrying.init retryCfg fun _ => emptyServer twoSeed twoSeed) nullRun s ∧
      ¬ s.FailedCleanly := by
  obtain ⟨s, hs, hany⟩ := (Option.any_eq_true _ _).1 nullRun_result
  simp only [Bool.and_eq_true, decide_eq_true_eq] at hany
  obtain ⟨⟨hr, hmem⟩, hw⟩ := hany
  obtain ⟨h, hh, hw⟩ := (Option.any_eq_true _ _).1 hw
  refine ⟨s, exec_run hs, fun hf => ?_⟩
  rw [hf hr 1 hmem h hh] at hw
  cases hw

end Sample

end Retrying

end Kumofs
