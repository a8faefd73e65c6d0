import Mathlib.Data.List.Induction

/-!
# Waiting for all to report

A wait is started for a list of members and a tag, and its members report with a tag, in any order
and more than once. Events of any type are read as such operations; `completes` is the report after
which nobody is left, and `completes_iff` says which one that is in terms of the events alone.
-/

namespace Countdown

/-- What an event is to a wait. -/
inductive Op (τ α : Type*)
  | start (t : τ) (members : List α)
  | report (t : τ) (a : α)
  | stop
  | skip

namespace Op

variable {τ α : Type*} [DecidableEq τ] [DecidableEq α]

/-- The wait goes on, if there is one. -/
def GoesOn : Op τ α → Prop
  | .report .. | .skip => True
  | .start .. | .stop => False

def isStart : Op τ α → Bool
  | .start .. => true
  | _ => false

def reports (t : τ) (a : α) : Op τ α → Bool
  | .report t' b => t' = t && b = a
  | _ => false

end Op

/-- A wait, and who has not reported. -/
structure Wait (τ α : Type*) where
  tag : τ
  members : List α
  left : List α

variable {τ α ε : Type*} [DecidableEq τ] [DecidableEq α]

def next (w : Option (Wait τ α)) : Op τ α → Option (Wait τ α)
  | .start t members => some ⟨t, members, members⟩
  | .report t a =>
    w.map fun w => if w.tag = t then { w with left := w.left.filter (· ≠ a) } else w
  | .stop => none
  | .skip => w

/-- The report is the one that was waited for. -/
def completes (w : Option (Wait τ α)) : Op τ α → Bool
  | .report t a =>
    w.any fun w => w.tag = t && !w.left.isEmpty && (w.left.filter (· ≠ a)).isEmpty
  | _ => false

/-- The wait after these events. -/
def after (op : ε → Op τ α) (h : List ε) : Option (Wait τ α) :=
  h.foldl (fun w e => next w (op e)) none

/-- The members that have not reported in these events. -/
def unreported (op : ε → Op τ α) (t : τ) (h : List ε) (members : List α) : List α :=
  members.filter fun n => !h.any fun e => (op e).reports t n

variable {op : ε → Op τ α} {h h' : List ε} {e : ε} {w : Option (Wait τ α)} {o : Op τ α}

theorem after_concat : after op (h ++ [e]) = next (after op h) (op e) := by
  simp [after, List.foldl_append]

/-- Where the last event of a history is, seen from an earlier one. -/
theorem concat_eq_split {pre mid : List ε} {x : ε} : h ++ [e] = pre ++ x :: mid ↔
    (h = pre ∧ e = x ∧ mid = []) ∨ ∃ mid', mid = mid' ++ [e] ∧ h = pre ++ x :: mid' := by
  rcases List.eq_nil_or_concat mid with rfl | ⟨mid', y, rfl⟩
  · simp
  · rw [List.concat_eq_append, ← List.cons_append, ← List.append_assoc]
    simp only [List.append_eq_nil_iff, List.cons_ne_self, and_false, false_or]
    constructor
    · intro he
      obtain ⟨h1, h2⟩ := List.append_inj' he rfl
      cases h2
      exact ⟨mid', rfl, h1⟩
    · rintro ⟨mid'', hm, rfl⟩
      obtain ⟨rfl, h2⟩ := List.append_inj' hm rfl
      cases h2
      rfl

theorem unreported_concat {t : τ} {members : List α} : unreported op t (h ++ [e]) members =
    (unreported op t h members).filter fun n => !(op e).reports t n := by
  unfold unreported
  rw [List.filter_filter]
  refine List.filter_congr fun n _ => ?_
  simp [Bool.and_comm]

@[simp] theorem unreported_nil {t : τ} {members : List α} :
    unreported op t [] members = members := by
  simp [unreported]

/-- An event that lets the wait go on takes its reports from who is left. -/
theorem next_of_goesOn (ho : o.GoesOn) : next w o =
    w.map fun w => { w with left := w.left.filter fun n => !o.reports w.tag n } := by
  have same : ∀ w : Wait τ α, (∀ n, o.reports w.tag n = false) →
      w = { w with left := w.left.filter fun n => !o.reports w.tag n } := by
    intro w hn
    have hl : w.left.filter (fun n => !o.reports w.tag n) = w.left :=
      List.filter_eq_self.2 fun n _ => by simp [hn n]
    rw [hl]
  cases o with
  | report t a =>
    refine Option.map_congr fun w _ => ?_
    split_ifs with ht
    · have hf : (fun n => decide (n ≠ a)) = fun n => !(Op.report t a).reports w.tag n := by
        funext n
        simp [Op.reports, ht, eq_comm]
      rw [hf]
    · exact same w fun n => by simp [Op.reports, Ne.symm ht]
  | skip =>
    cases w with
    | none => rfl
    | some w => exact congrArg some (same w fun n => rfl)
  | start | stop => exact ho.elim

/-- The wait under way is the last one that was started, if nothing stopped it. -/
theorem after_eq_some_iff {w : Wait τ α} : after op h = some w ↔
    ∃ pre x mid, h = pre ++ x :: mid ∧ op x = .start w.tag w.members ∧
      (∀ y ∈ mid, (op y).GoesOn) ∧ w.left = unreported op w.tag mid w.members := by
  induction h using List.reverseRecOn generalizing w with
  | nil => simp [after]
  | append_singleton h e ih =>
    rw [after_concat]
    constructor
    · intro hn
      by_cases hg : (op e).GoesOn
      · rw [next_of_goesOn hg] at hn
        obtain ⟨w', hw', rfl⟩ := Option.map_eq_some_iff.1 hn
        obtain ⟨pre, x, mid, rfl, hx, hmid, hleft⟩ := ih.1 hw'
        refine ⟨pre, x, mid ++ [e], by simp, hx, fun y hy => ?_, ?_⟩
        · rcases List.mem_append.1 hy with hy | hy
          · exact hmid y hy
          · rwa [List.mem_singleton.1 hy]
        · rw [unreported_concat, ← hleft]
      · cases ho : op e with
        | start t members =>
          rw [ho] at hn
          cases hn
          exact ⟨h, e, [], rfl, ho, by simp, unreported_nil.symm⟩
        | stop =>
          rw [ho] at hn
          cases hn
        | report | skip => simp [ho, Op.GoesOn] at hg
    · rintro ⟨pre, x, mid, heq, hx, hmid, hleft⟩
      rcases concat_eq_split.1 heq with ⟨rfl, rfl, rfl⟩ | ⟨mid', rfl, rfl⟩
      · rw [unreported_nil] at hleft
        rw [hx, next]
        exact congrArg (fun l => some (Wait.mk w.tag w.members l)) hleft.symm
      · have hbefore : after op (pre ++ x :: mid') =
            some ⟨w.tag, w.members, unreported op w.tag mid' w.members⟩ :=
          ih.2 ⟨pre, x, mid', rfl, hx, fun y hy => hmid y (by simp [hy]), rfl⟩
        rw [hbefore, next_of_goesOn (hmid e (by simp)), Option.map_some, ← unreported_concat,
          ← hleft]

theorem after_of_start {pre mid : List ε} {x : ε} {t : τ} {members : List α}
    (hx : op x = .start t members) (hmid : ∀ y ∈ mid, (op y).GoesOn) :
    after op (pre ++ x :: mid) = some ⟨t, members, unreported op t mid members⟩ :=
  after_eq_some_iff.2 ⟨pre, x, mid, rfl, hx, hmid, rfl⟩

theorem mem_unreported {t : τ} {members : List α} {n : α} : n ∈ unreported op t h members ↔
    n ∈ members ∧ ∀ y ∈ h, (op y).reports t n = false := by
  simp [unreported]

/-- Only `a` is left. -/
theorem last_iff {t : τ} {members : List α} {a : α} :
    (unreported op t h members ≠ [] ∧ (unreported op t h members).filter (· ≠ a) = []) ↔
      a ∈ members ∧ (∀ y ∈ h, (op y).reports t a = false) ∧
        ∀ n ∈ members, n = a ∨ ∃ y ∈ h, (op y).reports t n = true := by
  have hnil : (unreported op t h members).filter (· ≠ a) = [] ↔
      ∀ n ∈ members, n = a ∨ ∃ y ∈ h, (op y).reports t n = true := by
    simp only [List.filter_eq_nil_iff, mem_unreported, decide_eq_true_eq, not_not, and_imp]
    refine forall_congr' fun n => imp_congr_right fun _ => ⟨fun hn => ?_, ?_⟩
    · by_contra hc
      simp only [not_or, not_exists, not_and, Bool.not_eq_true] at hc
      exact hc.1 (hn hc.2)
    · rintro (rfl | ⟨y, hy, hr⟩) hn
      · rfl
      · rw [hn y hy] at hr
        cases hr
  rw [hnil, ← and_assoc, ← mem_unreported]
  refine and_congr_left fun hall => ⟨fun hne => ?_, List.ne_nil_of_mem⟩
  obtain ⟨n, hn⟩ := List.exists_mem_of_ne_nil _ hne
  obtain ⟨hmem, hno⟩ := mem_unreported.1 hn
  rcases hall n hmem with rfl | ⟨y, hy, hr⟩
  · exact hn
  · rw [hno y hy] at hr
    cases hr

/-- A report completes a wait if it is the first of its member and all other members have
reported. -/
theorem completes_iff {t : τ} {a : α} : completes (after op h) (.report t a) = true ↔
    ∃ pre x mid members, h = pre ++ x :: mid ∧ op x = .start t members ∧
      (∀ y ∈ mid, (op y).GoesOn) ∧ a ∈ members ∧ (∀ y ∈ mid, (op y).reports t a = false) ∧
      ∀ n ∈ members, n = a ∨ ∃ y ∈ mid, (op y).reports t n = true := by
  constructor
  · intro hc
    obtain ⟨w, hw, hc⟩ := (Option.any_eq_true _ _).1 hc
    simp only [Bool.and_eq_true, Bool.not_eq_true', decide_eq_true_eq, List.isEmpty_iff,
      List.isEmpty_eq_false_iff] at hc
    obtain ⟨⟨rfl, hne⟩, hnil⟩ := hc
    obtain ⟨pre, x, mid, rfl, hx, hmid, hl⟩ := after_eq_some_iff.1 hw
    rw [hl] at hne hnil
    exact ⟨pre, x, mid, w.members, rfl, hx, hmid, last_iff.1 ⟨hne, hnil⟩⟩
  · rintro ⟨pre, x, mid, members, rfl, hx, hmid, hl⟩
    obtain ⟨hne, hnil⟩ := last_iff.2 hl
    rw [after_of_start hx hmid]
    simp only [completes, Option.any_some, Bool.and_eq_true, Bool.not_eq_true', decide_eq_true_eq,
      List.isEmpty_iff, List.isEmpty_eq_false_iff]
    exact ⟨⟨trivial, hne⟩, hnil⟩

/-! ## Marks -/

/-- No member of the wait is left. -/
def idle (w : Option (Wait τ α)) : Bool := w.all (·.left.isEmpty)

theorem idle_next (hw : idle w = true) (ho : o.isStart = false) :
    idle (next w o) = true ∧ completes w o = false := by
  cases w with
  | none => cases o <;> simp_all [next, completes, idle, Op.isStart]
  | some w =>
    have hl : w.left = [] := by simpa [idle] using hw
    cases o with
    | start => cases ho
    | stop | skip => exact ⟨by simp [next, idle, hl], rfl⟩
    | report t a =>
      refine ⟨?_, by simp [completes, hl]⟩
      simp only [next, idle, Option.map_some, Option.all_some]
      split_ifs <;> simp [hl]

theorem idle_next_of_completes (hc : completes w o = true) : idle (next w o) = true := by
  cases o with
  | report t a =>
    obtain ⟨w, rfl, hw⟩ := (Option.any_eq_true _ _).1 hc
    simp only [Bool.and_eq_true, decide_eq_true_eq] at hw
    rw [next, Option.map_some, if_pos hw.1.1]
    exact hw.2
  | start | stop | skip => cases hc

variable {mark : ε → Bool}

/-- The marked events of a history are the reports that complete a wait. -/
def Marked (op : ε → Op τ α) (mark : ε → Bool) (h : List ε) : Prop :=
  ∀ pre e post, h = pre ++ e :: post → mark e = completes (after op pre) (op e)

theorem marked_nil : Marked op mark [] := by
  intro pre e post he
  simp at he

theorem Marked.left (hm : Marked op mark (h ++ h')) : Marked op mark h := by
  intro pre e post he
  exact hm pre e (post ++ h') (by simp [he])

theorem Marked.concat (hm : Marked op mark h) (he : mark e = completes (after op h) (op e)) :
    Marked op mark (h ++ [e]) := by
  intro pre x post heq
  rcases concat_eq_split.1 heq with ⟨rfl, rfl, -⟩ | ⟨post', -, heq⟩
  · exact he
  · exact hm pre x post' heq

/-- Nobody is left, so nothing completes the wait before another is started. -/
theorem Marked.countP_of_idle : ∀ {h h' : List ε}, Marked op mark (h ++ h') →
    (∀ e ∈ h', (op e).isStart = false) → idle (after op h) = true → h'.countP mark = 0
  | _, [], _, _, _ => rfl
  | h, e :: h', hm, hs, hi => by
    obtain ⟨hn, hc⟩ := idle_next hi (hs e List.mem_cons_self)
    have he : mark e = false := (hm h e h' rfl).trans hc
    rw [List.countP_cons_of_neg (by simp [he])]
    refine Marked.countP_of_idle (h := h ++ [e]) ?_ (fun x hx => hs x (List.mem_cons_of_mem _ hx)) ?_
    · simpa using hm
    · rwa [after_concat]

/-- At most one report completes a wait. -/
theorem Marked.countP_le_one : ∀ {h h' : List ε}, Marked op mark (h ++ h') →
    (∀ e ∈ h', (op e).isStart = false) → h'.countP mark ≤ 1
  | _, [], _, _ => Nat.zero_le _
  | h, e :: h', hm, hs => by
    have hm' : Marked op mark (h ++ [e] ++ h') := by simpa using hm
    have hs' : ∀ x ∈ h', (op x).isStart = false := fun x hx => hs x (List.mem_cons_of_mem _ hx)
    cases he : mark e with
    | false =>
      rw [List.countP_cons_of_neg (by simp [he])]
      exact hm'.countP_le_one hs'
    | true =>
      have hi : idle (after op (h ++ [e])) = true := by
        rw [after_concat]
        exact idle_next_of_completes ((hm h e h' rfl).symm.trans he)
      have hzero := hm'.countP_of_idle hs' hi
      rw [List.countP_cons_of_pos he]
      omega

end Countdown
