import Kumofs.Gate.Text
import Kumofs.Lib.Count
import Kumofs.Lib.Turns

/-!
# The replies of the text gate

A callback that writes does so once for its command: a command for several keys when the last of its
requests is answered. But it writes when it is called, and not when it is the command's turn, and
the callback of `cas` and the refusal of a command write whether the command has a `noreply` or
not. So the replies are those the client waits for, in order, just where every write comes in turn.
-/

namespace Kumofs.Gate.Text

open Machine

variable {o : Options} {c c' : Conn}

/-! ## One command -/

/-- A command is answered at once, is one request, or shares a count of all its requests. -/
def Handled.Fits (h : Handled) (atOnce noreply : Bool) : Prop :=
  (atOnce = true ∧ ∃ b, h = .reply b) ∨
  (atOnce = false ∧ ∃ q cb, h = .submit q cb ∧ (cb.silent = true → noreply = true) ∧
    ∀ m, cb.share m = 1) ∨
  (atOnce = false ∧ ∃ m reqs, h = .submitMulti m reqs ∧ reqs ≠ [] ∧ m.count = reqs.length ∧
    ∀ x ∈ reqs, x.2.silent = false ∧ x.2.share m = m.count)

theorem fits_retrieval (r : RequestRetrieval) (requireCas : Bool) :
    (if r.keys.length = 1 then requestGetSingle r requireCas
      else requestGetMulti r requireCas).Fits false false := by
  split_ifs with hone
  · exact .inr (.inl ⟨rfl, _, _, rfl, by simp [Callback.silent], fun _ => rfl⟩)
  · refine .inr (.inr ⟨rfl, _, _, rfl, by simpa using r.keys_ne, by simp, fun x hx => ?_⟩)
    obtain ⟨k, -, rfl⟩ := List.mem_map.1 hx
    exact ⟨rfl, rfl⟩

theorem fits_storage (o : Options) (t : UInt32) (cmd : StorageCommand) (r : RequestStorage)
    (casUnique : UInt64) : (requestSetImpl o t cmd r casUnique).Fits
      ((!o.saveFlag && r.flags != 0) || (!o.saveExptime && r.exptime != 0)) r.noreply := by
  have hcallback : ((if r.noreply then .noreplySet else .set : Callback).silent = true →
      r.noreply = true) ∧ ∀ m, (if r.noreply then .noreplySet else .set : Callback).share m = 1 := by
    cases r.noreply
    · exact ⟨fun h => h, fun _ => rfl⟩
    · exact ⟨fun h => h, fun _ => rfl⟩
  unfold requestSetImpl
  by_cases hun : ((!o.saveFlag && r.flags != 0) || (!o.saveExptime && r.exptime != 0)) = true
  · rw [if_pos hun]
    exact .inl ⟨hun, _, rfl⟩
  · rw [if_neg hun]
    have hat := Bool.eq_false_of_not_eq_true hun
    cases cmd with
    | set => exact .inr (.inl ⟨hat, _, _, rfl, hcallback⟩)
    | cas => exact .inr (.inl ⟨hat, _, _, rfl, by simp [Callback.silent], fun _ => rfl⟩)
    | append => exact .inr (.inl ⟨hat, _, _, rfl, hcallback⟩)
    | prepend => exact .inr (.inl ⟨hat, _, _, rfl, hcallback⟩)

theorem fits_delete (r : RequestDelete) : (requestDelete r).Fits (r.exptime != 0) r.noreply := by
  unfold requestDelete
  split_ifs with hun hno
  · exact .inl ⟨by simpa using hun, _, rfl⟩
  · exact .inr (.inl ⟨by simpa using hun, _, _, rfl, fun _ => hno, fun _ => rfl⟩)
  · exact .inr (.inl ⟨by simpa using hun, _, _, rfl, by simp [Callback.silent], fun _ => rfl⟩)

theorem handle_cases (o : Options) (t : UInt32) (r : Request) :
    (handle o t r).Fits (r.atOnce o) r.noreply := by
  cases r with
  | get r => exact fits_retrieval r false
  | gets r => exact fits_retrieval r true
  | set r => exact fits_storage o t .set r 0
  | cas r casUnique => exact fits_storage o t .cas r casUnique
  | delete r => exact fits_delete r
  | version => exact .inl ⟨rfl, _, rfl⟩

/-- The requests of a command, as they join those that are not answered. -/
structure Submits (c : Conn) (r : Request) (new : List Pending) (shared : ℕ → Multi) : Prop where
  ne : new ≠ []
  command : ∀ p ∈ new, p.command = c.commands.length
  silent : ∀ p ∈ new, p.callback.silent = true → r.noreply = true
  share : ∀ p ∈ new, p.callback.share (shared c.commands.length) = new.length
  frame : ∀ k ≠ c.commands.length, shared k = c.shared k

theorem command_cases (o : Options) (c : Conn) (r : Request) :
    (r.atOnce o = true ∧ ∃ b, c.command o r = { c with
      commands := c.commands ++ [r], written := c.written ++ [(c.commands.length, b)] }) ∨
    (r.atOnce o = false ∧ ∃ new shared, Submits c r new shared ∧ c.command o r = { c with
      commands := c.commands ++ [r], pending := c.pending ++ new, shared := shared }) := by
  unfold Conn.command
  rcases handle_cases o c.systemTime r with ⟨hat, b, he⟩ | ⟨hat, q, cb, he, hsilent, hshare⟩ |
    ⟨hat, m, reqs, he, hne, hcount, hreqs⟩
  · exact .inl ⟨hat, b, by simp only [he]⟩
  · refine .inr ⟨hat, [⟨c.commands.length, q, cb⟩], c.shared, ⟨by simp, ?_, ?_, ?_, fun _ _ => rfl⟩,
      by simp only [he]⟩
    · simp
    · simpa using hsilent
    · simpa using hshare _
  · refine .inr ⟨hat, reqs.map fun x => ⟨c.commands.length, x.1, x.2⟩,
      Function.update c.shared c.commands.length m, ⟨by simpa using hne, ?_, ?_, ?_, ?_⟩,
      by simp only [he]⟩
    · intro p hp
      obtain ⟨x, -, rfl⟩ := List.mem_map.1 hp
      rfl
    · intro p hp hs
      obtain ⟨x, hx, rfl⟩ := List.mem_map.1 hp
      rw [(hreqs x hx).1] at hs
      cases hs
    · intro p hp
      obtain ⟨x, hx, rfl⟩ := List.mem_map.1 hp
      rw [Function.update_self, (hreqs x hx).2, hcount, List.length_map]
    · intro k hk
      rw [Function.update_of_ne hk]

/-! ## One callback -/

/-- A callback sends where it is not silent and the last of its command, and counts itself off. -/
theorem respond_spec {t : UInt32} {m m' : Multi} {cb : Callback} {res : Res}
    {sent : Option Bytes} (h : respond o t m cb res = some (m', sent)) :
    sent.isSome = (!cb.silent && cb.share m == 1) ∧
      ((∀ m, cb.share m = 1) ∨ m'.count = m.count - 1) := by
  unfold respond at h
  split at h <;> simp only [Option.some.injEq, Prod.mk.injEq, reduceCtorEq] at h
  · obtain ⟨-, rfl⟩ := h
    exact ⟨rfl, .inl fun _ => rfl⟩
  · unfold responseGetMulti at h
    simp only [] at h
    split_ifs at h with hone
    all_goals
      simp only [Prod.mk.injEq] at h
      obtain ⟨rfl, rfl⟩ := h
      exact ⟨by simp [Callback.silent, Callback.share, hone], .inr rfl⟩
  all_goals
    obtain ⟨-, rfl⟩ := h
    exact ⟨rfl, .inl fun _ => rfl⟩

theorem complete_cases {i : ℕ} {res : Res} (h : c.complete o i res = some c') :
    ∃ p m, ∃ sent : Option Bytes, c.pending[i]? = some p ∧ sent.isSome = c.writes p ∧
      ((∀ m, p.callback.share m = 1) ∨ m.count = (c.shared p.command).count - 1) ∧
      c' = { c with
        pending := c.pending.eraseIdx i
        shared := Function.update c.shared p.command m
        written := if c.valid then c.written ++ sent.toList.map (p.command, ·) else c.written } := by
  unfold Conn.complete at h
  simp only [Option.bind_eq_bind, Option.bind_eq_some_iff, Option.some.injEq] at h
  obtain ⟨p, hp, ⟨m, sent⟩, hr, rfl⟩ := h
  obtain ⟨hsent, hcount⟩ := respond_spec hr
  exact ⟨p, m, sent, hp, hsent, hcount, rfl⟩

/-! ## What holds of the requests that are not answered -/

def Conn.left (c : Conn) (n : ℕ) : ℕ := c.pending.countP (·.command == n)

/-- Each is of a command that came, is silent only where the command has a `noreply`, and its
command's count is of those left. -/
structure Sound (c : Conn) : Prop where
  commands : ∀ p ∈ c.pending, ∃ r, c.commands[p.command]? = some r ∧
    (p.callback.silent = true → r.noreply = true)
  share : ∀ p ∈ c.pending, c.left p.command = p.callback.share (c.shared p.command)

theorem Conn.awaits_eq (c : Conn) (n : ℕ) : c.awaits n = decide (0 < c.left n) := by
  unfold Conn.awaits Conn.left
  rw [Bool.eq_iff_iff, decide_eq_true_eq, List.countP_pos_iff, List.any_eq_true]

theorem Sound.lt (h : Sound c) {p : Pending} (hp : p ∈ c.pending) :
    p.command < c.commands.length := by
  obtain ⟨r, hr, -⟩ := h.commands p hp
  exact (List.getElem?_eq_some_iff.1 hr).1

theorem Sound.left_length (h : Sound c) : c.left c.commands.length = 0 := by
  unfold Conn.left
  rw [List.countP_eq_zero]
  intro p hp he
  have := h.lt hp
  have he : p.command = c.commands.length := by simpa using he
  omega

theorem Submits.countP {r : Request} {new : List Pending} {shared : ℕ → Multi}
    (h : Submits c r new shared) (n : ℕ) :
    new.countP (·.command == n) = if n = c.commands.length then new.length else 0 := by
  split_ifs with hn
  · rw [List.countP_eq_length]
    intro p hp
    simp [h.command p hp, hn]
  · rw [List.countP_eq_zero]
    intro p hp
    simp [h.command p hp, Ne.symm hn]

theorem Submits.any {r : Request} {new : List Pending} {shared : ℕ → Multi}
    (h : Submits c r new shared) (n : ℕ) :
    new.any (·.command == n) = (n == c.commands.length) := by
  rw [Bool.eq_iff_iff, List.any_eq_true]
  constructor
  · rintro ⟨p, hp, hn⟩
    rwa [h.command p hp, BEq.comm] at hn
  · intro hn
    obtain ⟨p, hp⟩ := List.exists_mem_of_ne_nil _ h.ne
    exact ⟨p, hp, by rwa [h.command p hp, BEq.comm]⟩

theorem Sound.command {r : Request} (h : Sound c) : Sound (c.command o r) := by
  have hold : ∀ p ∈ c.pending, ∃ r', (c.commands ++ [r])[p.command]? = some r' ∧
      (p.callback.silent = true → r'.noreply = true) := by
    intro p hp
    obtain ⟨r', hr', hs⟩ := h.commands p hp
    exact ⟨r', by rw [List.getElem?_append_left (h.lt hp), hr'], hs⟩
  rcases command_cases o c r with ⟨-, b, he⟩ | ⟨-, new, shared, hnew, he⟩
  · rw [he]
    exact ⟨hold, h.share⟩
  · rw [he]
    refine ⟨?_, ?_⟩
    · intro p hp
      rcases List.mem_append.1 hp with hp | hp
      · exact hold p hp
      · refine ⟨r, ?_, hnew.silent p hp⟩
        rw [hnew.command p hp]
        simp
    · intro p hp
      have hleft : ∀ n, ({ c with
          commands := c.commands ++ [r], pending := c.pending ++ new, shared } : Conn).left n =
          c.left n + if n = c.commands.length then new.length else 0 := by
        intro n
        unfold Conn.left
        rw [List.countP_append, hnew.countP]
      rw [hleft]
      rcases List.mem_append.1 hp with hp | hp
      · have hne : p.command ≠ c.commands.length := Nat.ne_of_lt (h.lt hp)
        rw [if_neg hne, Nat.add_zero, h.share p hp]
        simp only [hnew.frame _ hne]
      · rw [hnew.command p hp, if_pos rfl, h.left_length, Nat.zero_add]
        exact (hnew.share p hp).symm

/-! ### A request that is answered -/

section Answered

variable {i : ℕ} {p : Pending} {m : Multi} {w : List (ℕ × Bytes)}

/-- The connection without that request. -/
def Conn.answered (c : Conn) (i : ℕ) (p : Pending) (m : Multi) (w : List (ℕ × Bytes)) : Conn :=
  { c with
    pending := c.pending.eraseIdx i
    shared := Function.update c.shared p.command m
    written := w }

theorem left_answered (hp : c.pending[i]? = some p) (n : ℕ) :
    (c.answered i p m w).left n + (p.command == n).toNat = c.left n :=
  Counting.countP_eraseIdx (p := fun q : Pending => q.command == n) hp

theorem Sound.answered (h : Sound c) (hp : c.pending[i]? = some p)
    (hcount : (∀ m, p.callback.share m = 1) ∨ m.count = (c.shared p.command).count - 1) :
    Sound (c.answered i p m w) := by
  have hmem : p ∈ c.pending := List.mem_of_getElem? hp
  refine ⟨fun q hq => h.commands q (List.mem_of_mem_eraseIdx hq), fun q hq => ?_⟩
  have hq' : q ∈ c.pending := List.mem_of_mem_eraseIdx hq
  have hleft := left_answered (m := m) (w := w) hp q.command
  by_cases hc : p.command = q.command
  · -- a request of the same command is left, so both are of one for several keys
    have hpos : 0 < (c.answered i p m w).left q.command :=
      Counting.countP_pos_of_mem hq (by simp)
    have hone : ((p.command == q.command) : Bool).toNat = 1 := by simp [hc]
    have hshare := h.share p hmem
    have hshare' := h.share q hq'
    rw [hc] at hshare
    rcases hcount with hcount | hcount
    · rw [hcount] at hshare
      omega
    · have hm : (c.answered i p m w).shared q.command = m := by
        rw [← hc]
        exact Function.update_self _ _ _
      rw [hm]
      cases hcb : q.callback with
      | getMulti b offset =>
        rw [hcb] at hshare'
        simp only [Callback.share] at hshare' ⊢
        rw [hc] at hcount
        omega
      | _ =>
        rw [hcb] at hshare'
        simp only [Callback.share] at hshare'
        omega
  · have hshared : (c.answered i p m w).shared q.command = c.shared q.command :=
      Function.update_of_ne (Ne.symm hc) _ _
    have hzero : ((p.command == q.command) : Bool).toNat = 0 := by simp [hc]
    rw [hshared, ← h.share q hq']
    omega

theorem awaits_answered (h : Sound c) (hp : c.pending[i]? = some p) (n : ℕ) :
    (c.answered i p m w).awaits n = (c.awaits n &&
      !(n == p.command && p.callback.share (c.shared p.command) == 1)) := by
  have hleft := left_answered (m := m) (w := w) hp n
  rw [Conn.awaits_eq, Conn.awaits_eq, Bool.eq_iff_iff]
  by_cases hn : p.command = n
  · subst hn
    have hshare := h.share p (List.mem_of_getElem? hp)
    simp only [beq_self_eq_true, Bool.toNat_true] at hleft
    rw [← hshare]
    simp
    omega
  · have hzero : ((p.command == n) : Bool).toNat = 0 := by simp [hn]
    simp [Ne.symm hn]
    omega

end Answered

/-! ## The replies -/

/-- What was written and what is owed are together what is due. -/
def Conn.OnTime (c : Conn) : Prop := c.valid = true ∧ c.written.map (·.1) ++ c.owed = c.due

theorem Conn.due_nodup (c : Conn) : c.due.Nodup := List.nodup_range.filter _

theorem Conn.mem_due {n : ℕ} : n ∈ c.due ↔ c.wantsReply n = true := by
  unfold Conn.due
  rw [List.mem_filter, List.mem_range]
  refine ⟨fun h => h.2, fun h => ⟨?_, h⟩⟩
  by_contra hge
  rw [Conn.wantsReply, List.getElem?_eq_none (Nat.le_of_not_lt hge)] at h
  simp at h

theorem Conn.not_mem_due (c : Conn) : c.commands.length ∉ c.due := by
  rw [Conn.mem_due, Conn.wantsReply]
  simp

/-- A command adds its number where it has no `noreply`. -/
theorem due_append {r : Request} (h : c'.commands = c.commands ++ [r]) :
    c'.due = c.due ++ if r.noreply then [] else [c.commands.length] := by
  have hold : ∀ n ∈ List.range c.commands.length, c'.wantsReply n = c.wantsReply n := by
    intro n hn
    unfold Conn.wantsReply
    rw [h, List.getElem?_append_left (List.mem_range.1 hn)]
  have hnew : c'.wantsReply c.commands.length = !r.noreply := by
    unfold Conn.wantsReply
    simp [h]
  unfold Conn.due
  rw [h, List.length_append, List.length_singleton, List.range_succ, List.filter_append,
    List.filter_congr hold, List.filter_cons, hnew]
  cases r.noreply <;> rfl

theorem onTime_command {r : Request} (hs : Sound c) :
    (c.command o r).OnTime ↔ c.OnTime ∧ (r.atOnce o = true → r.noreply = false ∧ c.owed = []) := by
  have hnew := c.not_mem_due
  have hno : c.awaits c.commands.length = false := by
    rw [Conn.awaits_eq, hs.left_length]
    rfl
  rcases command_cases o c r with ⟨hat, b, he⟩ | ⟨hat, new, shared, hsub, he⟩
  · have hdue : (c.command o r).due = c.due ++ if r.noreply then [] else [c.commands.length] :=
      due_append (by rw [he])
    have hw : (c.command o r).written.map (·.1) = c.written.map (·.1) ++ [c.commands.length] := by
      rw [he]
      simp
    have howed : (c.command o r).owed = c.owed := by
      unfold Conn.owed
      rw [hdue, List.filter_append]
      have haw : (c.command o r).awaits = c.awaits := by rw [he]; rfl
      rw [haw]
      cases r.noreply <;> simp [hno]
    have hv : (c.command o r).valid = c.valid := by rw [he]
    unfold Conn.OnTime
    rw [hv, hw, howed, hdue]
    simp only [hat, forall_const, and_assoc]
    refine and_congr_right fun _ => ?_
    cases hr : r.noreply
    · simp only [Bool.false_eq_true, if_false, true_and]
      exact Turns.given_append_iff hnew
    · simp only [if_true, List.append_nil, Bool.true_eq_false, false_and, and_false, iff_false]
      exact Turns.given_ne_due hnew _
  · have hdue : (c.command o r).due = c.due ++ if r.noreply then [] else [c.commands.length] :=
      due_append (by rw [he])
    have haw : ∀ n, (c.command o r).awaits n = (c.awaits n || n == c.commands.length) := by
      intro n
      rw [he, ← hsub.any]
      exact List.any_append
    have howed : (c.command o r).owed = c.owed ++ if r.noreply then [] else [c.commands.length] := by
      unfold Conn.owed
      rw [hdue, List.filter_append]
      congr 1
      · apply List.filter_congr
        intro n hn
        rw [haw]
        have hne : n ≠ c.commands.length := fun h => hnew (h ▸ hn)
        simp [hne]
      · cases r.noreply <;> simp [haw]
    have hw : (c.command o r).written = c.written := by rw [he]
    have hv : (c.command o r).valid = c.valid := by rw [he]
    unfold Conn.OnTime
    rw [hv, hw, howed, hdue, ← List.append_assoc, List.append_left_inj]
    simp [hat]

/-- A command with a silent callback is not due. -/
theorem Sound.ne_of_silent {p : Pending} {n : ℕ} (h : Sound c) (hp : p ∈ c.pending)
    (hs : p.callback.silent = true) (hn : n ∈ c.due) : n ≠ p.command := by
  rintro rfl
  obtain ⟨r, hr, hno⟩ := h.commands p hp
  rw [Conn.mem_due, Conn.wantsReply, hr] at hn
  simp [hno hs] at hn

theorem owed_answered {i : ℕ} {p : Pending} {m : Multi} {w : List (ℕ × Bytes)} (hs : Sound c)
    (hp : c.pending[i]? = some p) : (c.answered i p m w).owed = c.due.filter fun n =>
      c.awaits n && !(n == p.command && p.callback.share (c.shared p.command) == 1) :=
  List.filter_congr fun n _ => awaits_answered hs hp n

theorem onTime_complete {i : ℕ} {res : Res} (hs : Sound c) (h : c.complete o i res = some c') :
    c'.OnTime ↔ c.OnTime ∧ ∀ p, c.pending[i]? = some p → c.writes p = true →
      c.owed.head? = some p.command := by
  obtain ⟨p, m, sent, hp, hsent, -, rfl⟩ := complete_cases h
  change (c.answered i p m _).OnTime ↔ _
  have hguard : (∀ q, c.pending[i]? = some q → c.writes q = true →
      c.owed.head? = some q.command) ↔ (c.writes p = true → c.owed.head? = some p.command) := by
    rw [hp]
    exact ⟨fun h => h p rfl, fun h q hq => by cases hq; exact h⟩
  rw [hguard]
  unfold Conn.OnTime
  rw [show (c.answered i p m _).valid = c.valid from rfl, and_assoc]
  refine and_congr_right fun hv => ?_
  have hdue : (c.answered i p m (if c.valid = true then
      c.written ++ sent.toList.map (p.command, ·) else c.written)).due = c.due := rfl
  rw [hdue, owed_answered hs hp]
  simp only [Conn.answered, hv, if_true]
  cases hw : c.writes p with
  | true =>
    rw [hw] at hsent
    obtain ⟨b, rfl⟩ := Option.isSome_iff_exists.1 hsent
    have hone : (p.callback.share (c.shared p.command) == 1) = true := by
      unfold Conn.writes at hw
      exact (Bool.and_eq_true_iff.1 hw).2
    have hawait : c.awaits p.command = true :=
      List.any_eq_true.2 ⟨p, List.mem_of_getElem? hp, by simp⟩
    simp only [hone, Bool.and_true, Option.toList_some, List.map_cons, List.map_nil,
      List.map_append, forall_const]
    exact Turns.given_cons_iff c.due_nodup hawait
  | false =>
    rw [hw] at hsent
    obtain rfl := Option.not_isSome_iff_eq_none.1 (Bool.eq_false_iff.1 hsent)
    have hsame : (c.due.filter fun n =>
        c.awaits n && !(n == p.command && p.callback.share (c.shared p.command) == 1)) =
        c.owed := by
      apply List.filter_congr
      intro n hn
      unfold Conn.writes at hw
      rcases Bool.and_eq_false_iff.1 hw with hsil | hshare
      · have hne := hs.ne_of_silent (List.mem_of_getElem? hp) (by simpa using hsil) hn
        simp [hne]
      · rw [hshare]
        simp
    rw [hsame]
    simp

theorem step_sound {e : Event} (hs : Sound c) (h : c.step o e = some c') : Sound c' := by
  cases e with
  | command r =>
    simp only [Conn.step] at h
    split_ifs at h
    cases h
    exact hs.command
  | complete i res =>
    obtain ⟨p, m, sent, hp, -, hcount, rfl⟩ := complete_cases h
    exact hs.answered hp hcount
  | updateSystemTime t =>
    cases h
    exact ⟨hs.commands, hs.share⟩
  | close =>
    simp only [Conn.step] at h
    split_ifs at h
    cases h
    exact ⟨hs.commands, hs.share⟩

theorem step_onTime {e : Event} (hs : Sound c) (h : c.step o e = some c') :
    c'.OnTime ↔ c.OnTime ∧ InTurn o c e := by
  cases e with
  | command r =>
    simp only [Conn.step] at h
    split_ifs at h
    cases h
    exact onTime_command hs
  | complete i res => exact onTime_complete hs h
  | updateSystemTime t =>
    cases h
    exact ⟨fun h => ⟨h, trivial⟩, fun h => h.1⟩
  | close =>
    simp only [Conn.step] at h
    split_ifs at h
    cases h
    exact ⟨fun h => absurd h.1 Bool.false_ne_true, fun h => h.2.elim⟩

theorem owed_of_answered (h : c.pending = []) : c.owed = [] := by
  unfold Conn.owed
  rw [List.filter_eq_nil_iff]
  intro n _
  simp [Conn.awaits, h]

/-- Once all requests of an open connection are answered, its replies are one for every command
without `noreply`, in the order of the commands, just where each was written in its turn. -/
theorem replies_iff_inTurn {t : UInt32} {es : List Event}
    (hrun : Run (Conn.step o) Free (.init t) es c) (hopen : c.valid = true)
    (hdone : c.pending = []) :
    c.written.map (·.1) = c.due ↔ Run (Conn.step o) (InTurn o) (.init t) es c := by
  have hinit : Sound (.init t) := ⟨by simp [Conn.init], by simp [Conn.init]⟩
  have hstart : (Conn.init t).OnTime := ⟨rfl, rfl⟩
  have hiff := hrun.guard_iff (P := InTurn o) (I := Sound) (J := Conn.OnTime)
    (fun _ _ _ hs h => step_sound hs h) (fun _ _ _ hs h => step_onTime hs h) hinit
  rw [Conn.OnTime, owed_of_answered hdone, List.append_nil] at hiff
  exact ⟨fun h => (hiff.1 ⟨hopen, h⟩).2, fun h => (hiff.2 ⟨hstart, h⟩).2⟩

section Sample

/-- `set k 0 0 1`, with a `noreply` or without. -/
def setRequest (noreply : Bool) : Request := .set ⟨[107], [118], 0, 0, noreply⟩

/-- `get k`. -/
def getRequest : Request := .get ⟨[[107]], List.cons_ne_nil _ _⟩

/-- `cas k 0 0 1 1 noreply`. -/
def casNoreply : Request := .cas ⟨[107], [118], 0, 0, true⟩ 1

def stored : Res := .set ⟨false, true⟩

def absent : Res := .get ⟨false, [107], none, 0⟩

/-- The events of a client that sends a `set` without a reply, a `set`, and a `get`, all of which
are answered in this order. -/
def inOrder : List Event :=
  [.command (setRequest true), .command (setRequest false), .command getRequest,
    .complete 0 stored, .complete 0 stored, .complete 0 absent]

theorem replies_inOrder : ∃ c, Run (Conn.step ⟨false, false⟩) Free (.init 0) inOrder c ∧
    c.written.map (·.1) = c.due := by
  obtain ⟨c, hrun, hopen, hdone⟩ : ∃ c,
      Run (Conn.step ⟨false, false⟩) (InTurn ⟨false, false⟩) (.init 0) inOrder c ∧
        c.valid = true ∧ c.pending = [] := by
    refine ⟨_, .cons (fun h => absurd h (by decide)) rfl (.cons (fun h => absurd h (by decide)) rfl
      (.cons (fun h => absurd h (by decide)) rfl (.cons ?_ rfl (.cons ?_ rfl
        (.cons ?_ rfl (.nil _)))))), rfl, rfl⟩
    all_goals
      rintro p ⟨⟩ hw
      first
        | exact absurd hw (by decide)
        | decide
  have hfree := hrun.mono (Q := Free) fun _ _ _ => trivial
  exact ⟨c, hfree, (replies_iff_inTurn hfree hopen hdone).2 hrun⟩

/-- Two commands answered the other way round have their replies so; a `cas` with `noreply` has
one. -/
theorem replies_out_of_turn :
    (∃ c, Run (Conn.step ⟨false, false⟩) Free (.init 0) [.command (setRequest false),
        .command getRequest, .complete 1 absent, .complete 0 stored] c ∧
      c.valid = true ∧ c.pending = [] ∧ c.due = [0, 1] ∧ c.written.map (·.1) = [1, 0]) ∧
    ∃ c, Run (Conn.step ⟨false, false⟩) Free (.init 0) [.command casNoreply,
        .complete 0 stored] c ∧
      c.valid = true ∧ c.pending = [] ∧ c.due = [] ∧ c.written.map (·.1) = [0] := by
  refine ⟨⟨_, .cons trivial rfl (.cons trivial rfl (.cons trivial rfl (.cons trivial rfl
    (.nil _)))), rfl, rfl, rfl, rfl⟩, ⟨_, .cons trivial rfl (.cons trivial rfl (.nil _)), rfl, rfl,
    rfl, rfl⟩⟩

end Sample

end Kumofs.Gate.Text
