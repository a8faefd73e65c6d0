import Kumofs.Proofs.Text

/-!
# The reply to a command for several keys

Each answer fills the two vectors of its own key, so the vectors depend on the answers and not on
their order. Every value is put behind a line break, and the reply ends with one too: where the first
of them is taken away, what is left has one behind every value.
-/

namespace Kumofs.Gate.Text

open Machine

variable {o : Options}

def crlf : Bytes := text "\r\n"

/-! ## The vectors -/

/-- The two vectors of a key: its header and its data, where it is found. -/
def pair : Option (Bytes × Bytes) → List (Option Bytes)
  | none => [none, none]
  | some v => [some (crlf ++ v.1), some v.2]

def pairs (l : List (Option (Bytes × Bytes))) : List (Option Bytes) := l.flatMap pair

/-- What is written of the values. -/
def joined (l : List (Option (Bytes × Bytes))) : Bytes :=
  (l.filterMap id).flatMap fun v => v.1 ++ v.2 ++ crlf

theorem pairs_set : ∀ {l : List (Option (Bytes × Bytes))} {k : ℕ} (v : Bytes × Bytes)
    (t : List (Option Bytes)), k < l.length →
    ((pairs l ++ t).set (k * 2) (some (crlf ++ v.1))).set (k * 2 + 1) (some v.2) =
      pairs (l.set k (some v)) ++ t
  | [], _, _, _, h => by simp at h
  | x :: l, 0, v, t, _ => by cases x <;> rfl
  | x :: l, k + 1, v, t, h => by
    have ih := pairs_set v t (Nat.lt_of_succ_lt_succ h)
    have hk : (k + 1) * 2 = k * 2 + 2 := by omega
    unfold pairs at ih ⊢
    rw [hk, List.flatMap_cons, List.set_cons_succ, List.flatMap_cons, List.append_assoc,
      List.append_assoc, ← ih]
    cases x <;> rfl

theorem pairs_replicate (n : ℕ) : pairs (List.replicate n none) = List.replicate (2 * n) none := by
  induction n with
  | zero => rfl
  | succ n ih =>
    rw [List.replicate_succ, pairs, List.flatMap_cons, ← pairs, ih, Nat.mul_succ]
    rfl

/-- Without its first line break, what the vectors hold has one behind each value. -/
theorem gather_strip (e : Bytes) : ∀ l : List (Option (Bytes × Bytes)),
    gather (strip (pairs l ++ [some (crlf ++ e)])) = joined l ++ e ∧
      gather (pairs l ++ [some (crlf ++ e)]) = crlf ++ (joined l ++ e)
  | [] => ⟨by simp [pairs, joined, gather, strip, crlf, text], by simp [pairs, joined, gather]⟩
  | none :: l => gather_strip e l
  | some v :: l => by
    have ih := (gather_strip e l).2
    have hdrop : (crlf ++ v.1).drop 2 = v.1 := rfl
    have hgather : ∀ a b, gather (some a :: some b :: (pairs l ++ [some (crlf ++ e)])) =
        a ++ (b ++ (crlf ++ (joined l ++ e))) := fun a b => by
      rw [← ih]
      rfl
    have hjoined : joined (some v :: l) = v.1 ++ v.2 ++ crlf ++ joined l := rfl
    have hstrip : strip (pairs (some v :: l) ++ [some (crlf ++ e)]) =
        some v.1 :: some v.2 :: (pairs l ++ [some (crlf ++ e)]) := by
      rw [← hdrop]
      rfl
    constructor
    · rw [hstrip, hgather, hjoined]
      simp only [List.append_assoc]
    · rw [show pairs (some v :: l) ++ [some (crlf ++ e)] =
        some (crlf ++ v.1) :: some v.2 :: (pairs l ++ [some (crlf ++ e)]) from rfl, hgather, hjoined]
      simp only [List.append_assoc]

/-! ## The answers -/

/-- What the gateway has answered for a key, and the time at which it has. -/
structure Answer where
  systemTime : UInt32
  res : ResGet

/-- The keys of a command for several, and whether it is one for the clocktimes too. -/
def Request.multi : Request → Option (RequestRetrieval × Bool)
  | .get r => if r.keys.length = 1 then none else some (r, false)
  | .gets r => if r.keys.length = 1 then none else some (r, true)
  | _ => none

/-- A connection, and the answers to each command for several keys, in the order of its keys. -/
structure Traced where
  conn : Conn
  answers : ℕ → List (Option Answer)

namespace Traced

def init (systemTime : UInt32) : Traced := ⟨.init systemTime, fun _ => []⟩

/-- The answers to a command, none at first. -/
def start (s : Traced) (r : Request) : ℕ → List (Option Answer) :=
  match r.multi with
  | none => s.answers
  | some x =>
    Function.update s.answers s.conn.commands.length (List.replicate x.1.keys.length none)

/-- An answer to a request of a command for several keys. -/
def answer (s : Traced) (p : Pending) (res : ResGet) : ℕ → List (Option Answer) :=
  match p.callback with
  | .getMulti _ offset => Function.update s.answers p.command
      ((s.answers p.command).set (offset / 2) (some ⟨s.conn.systemTime, res⟩))
  | _ => s.answers

def record (s : Traced) : Event → ℕ → List (Option Answer)
  | .command r => s.start r
  | .complete i (.get res) => (s.conn.pending[i]?.map (s.answer · res)).getD s.answers
  | _ => s.answers

def step (o : Options) (s : Traced) (e : Event) : Option Traced :=
  (s.conn.step o e).map (⟨·, s.record e⟩)

/-- What was written for a command. -/
def writtenFor (s : Traced) (n : ℕ) : List Bytes :=
  (s.conn.written.filter (·.1 == n)).map (·.2)

end Traced

/-- The gateway answers for the key that it is asked for. -/
def KeyKept (s : Traced) : Event → Prop
  | .complete i (.get res) => ∀ p, s.conn.pending[i]? = some p → ∀ key, p.req = .get key →
      res.key = key
  | _ => True

/-- The header and the data of a key that is found. -/
def Answer.value (o : Options) (requireCas : Bool) (key : Bytes) (a : Answer) :
    Option (Bytes × Bytes) :=
  if a.res.error then none
  else (a.res.val.bind (found o a.systemTime)).map fun v =>
    (header requireCas key v.1 v.2.length a.res.clocktime, v.2)

/-- The reply of a command for several keys: the values of those that are found, each with a line
break behind it, in the order of the keys, and the end. -/
def multiReply (o : Options) (requireCas : Bool) (keys : List Bytes)
    (answers : List (Option Answer)) : Bytes :=
  ((keys.zip answers).filterMap fun x => x.2.bind (·.value o requireCas x.1)).flatMap
    (fun v => v.1 ++ v.2 ++ crlf) ++ text "END\r\n"

/-- The two vectors of each key, by its answer. -/
def cells (o : Options) (requireCas : Bool) (answers : List (Option Answer)) :
    List (Option (Bytes × Bytes)) :=
  answers.map fun a => a.bind fun a => a.value o requireCas a.res.key

theorem fill_pairs {t : UInt32} {requireCas : Bool} {k : ℕ} {res : ResGet}
    {answers : List (Option Answer)} {tail : List (Option Bytes)} (hk : answers[k]? = some none) :
    fill o t requireCas (k * 2) res (pairs (cells o requireCas answers) ++ tail) =
      pairs (cells o requireCas (answers.set k (some ⟨t, res⟩))) ++ tail := by
  have hlt : k < (cells o requireCas answers).length := by
    rw [cells, List.length_map]
    exact (List.getElem?_eq_some_iff.1 hk).1
  have hset : cells o requireCas (answers.set k (some ⟨t, res⟩)) =
      (cells o requireCas answers).set k (Answer.value o requireCas res.key ⟨t, res⟩) := by
    rw [cells, List.map_set]
    rfl
  have hnone : (cells o requireCas answers).set k none = cells o requireCas answers := by
    apply List.ext_getElem?
    intro i
    rw [List.getElem?_set]
    split_ifs with hi
    · subst hi
      simp [cells, hk]
    · rfl
  rw [hset]
  unfold fill Answer.value
  cases he : res.error with
  | true => rw [if_pos rfl, if_pos rfl, hnone]
  | false =>
    cases hv : res.val.bind (found o t) with
    | none => simp [hnone]
    | some v =>
      have hp := pairs_set (header requireCas res.key v.1 v.2.length res.clocktime, v.2) tail hlt
      simp only [Bool.false_eq_true, if_false, Option.map_some]
      exact hp

/-- Every answer is for the key it was asked for. -/
def Answers (keys : List Bytes) (answers : List (Option Answer)) : Prop :=
  answers.length = keys.length ∧
    ∀ (k : ℕ) (a : Answer), answers[k]? = some (some a) → keys[k]? = some a.res.key

theorem cells_eq {requireCas : Bool} {keys : List Bytes} {answers : List (Option Answer)}
    (h : Answers keys answers) : cells o requireCas answers =
      (keys.zip answers).map fun x => x.2.bind (·.value o requireCas x.1) := by
  apply List.ext_getElem?
  intro k
  rw [cells, List.getElem?_map, List.getElem?_map, List.zip, List.getElem?_zipWith]
  rcases ha : answers[k]? with _ | _ | a
  · cases keys[k]? <;> rfl
  · have hlt : k < keys.length := h.1 ▸ (List.getElem?_eq_some_iff.1 ha).1
    rw [List.getElem?_eq_getElem hlt]
    rfl
  · rw [h.2 k a ha]
    rfl

theorem joined_cells {requireCas : Bool} {keys : List Bytes} {answers : List (Option Answer)}
    (h : Answers keys answers) :
    joined (cells o requireCas answers) ++ text "END\r\n" =
      multiReply o requireCas keys answers := by
  rw [joined, cells_eq h, List.filterMap_map, multiReply]
  rfl

/-! ## One command for several keys -/

/-- The requests of a command that are not answered. -/
def Conn.waiting (c : Conn) (n : ℕ) : List Pending := c.pending.filter (·.command == n)

theorem Conn.awaits_iff {c : Conn} {n : ℕ} : c.awaits n = true ↔ c.waiting n ≠ [] := by
  unfold Conn.awaits Conn.waiting
  rw [List.any_eq_true, Ne, List.filter_eq_nil_iff]
  simp

/-- The command `n` is one for the keys of `r`. The vectors are those of the answers so far, and one
request is left for each key that has none; the reply is written when none is left. -/
structure MultiGet (o : Options) (s : Traced) (n : ℕ) (r : RequestRetrieval) (requireCas : Bool) :
    Prop where
  answers : Answers r.keys (s.answers n)
  waiting : ∀ p ∈ s.conn.waiting n, ∃ k key, (s.answers n)[k]? = some none ∧
    r.keys[k]? = some key ∧ p = ⟨n, .get key, .getMulti requireCas (k * 2)⟩
  once : ∀ k, (s.answers n)[k]? = some none →
    (s.conn.waiting n).countP (·.callback == .getMulti requireCas (k * 2)) = 1
  vhead : s.conn.waiting n ≠ [] → (s.conn.shared n).vhead =
    pairs (cells o requireCas (s.answers n)) ++ [some (crlf ++ text "END\r\n")]
  written : s.conn.valid = true → s.writtenFor n =
    if s.conn.awaits n then [] else [multiReply o requireCas r.keys (s.answers n)]

/-- None is left just where every key is answered. -/
theorem MultiGet.awaits_eq {s : Traced} {n : ℕ} {r : RequestRetrieval} {requireCas : Bool}
    (h : MultiGet o s n r requireCas) :
    s.conn.awaits n = !(s.answers n).all (·.isSome) := by
  rw [Bool.eq_iff_iff, Conn.awaits_iff, Bool.not_eq_true', Bool.eq_false_iff, Ne, Ne,
    List.all_eq_true]
  constructor
  · intro hne hall
    obtain ⟨p, hp⟩ := List.exists_mem_of_ne_nil _ hne
    obtain ⟨k, -, hk, -, -⟩ := h.waiting p hp
    have := hall none (List.mem_of_getElem? hk)
    cases this
  · intro hall hnil
    apply hall
    intro a ha
    obtain ⟨k, hk⟩ := List.mem_iff_getElem?.1 ha
    cases a with
    | some a => rfl
    | none =>
      have := h.once k hk
      rw [hnil] at this
      cases this

/-- A step that leaves the command alone. -/
theorem MultiGet.frame {s s' : Traced} {n : ℕ} {r : RequestRetrieval} {requireCas : Bool}
    (h : MultiGet o s n r requireCas) (ha : s'.answers n = s.answers n)
    (hw : s'.conn.waiting n = s.conn.waiting n) (hsh : s'.conn.shared n = s.conn.shared n)
    (hwr : s'.conn.valid = true → s'.writtenFor n = s.writtenFor n)
    (hv : s'.conn.valid = true → s.conn.valid = true) : MultiGet o s' n r requireCas := by
  have haw : s'.conn.awaits n = s.conn.awaits n := by
    rw [Bool.eq_iff_iff, Conn.awaits_iff, Conn.awaits_iff, hw]
  refine ⟨ha ▸ h.answers, ?_, ?_, ?_, fun hval => ?_⟩
  · rw [hw, ha]
    exact h.waiting
  · rw [hw, ha]
    exact h.once
  · rw [hw, ha, hsh]
    exact h.vhead
  · rw [hwr hval, haw, ha]
    exact h.written (hv hval)

/-! ### An answer to one of its requests -/

section Answered

variable {s : Traced} {n : ℕ} {r : RequestRetrieval} {requireCas : Bool} {i : ℕ} {p : Pending}

theorem waiting_erase {c : Conn} {m : Multi} {w : List (ℕ × Bytes)} (hp : c.pending[i]? = some p)
    (f : Pending → Bool) : ((c.answered i p m w).waiting n).countP f +
      (f p && p.command == n).toNat = (c.waiting n).countP f := by
  unfold Conn.waiting Conn.answered
  rw [List.countP_filter, List.countP_filter]
  exact Counting.countP_eraseIdx hp

theorem waiting_answered_of_ne {c : Conn} {m : Multi} {w : List (ℕ × Bytes)}
    (hp : c.pending[i]? = some p) (hne : p.command ≠ n) :
    (c.answered i p m w).waiting n = c.waiting n := by
  obtain ⟨hlt, hpi⟩ := List.getElem?_eq_some_iff.1 hp
  have hsplit := List.take_append_drop i c.pending
  unfold Conn.waiting Conn.answered
  rw [List.eraseIdx_eq_take_drop_succ, List.filter_append]
  conv_rhs => rw [← hsplit, List.drop_eq_getElem_cons hlt, List.filter_append, hpi]
  rw [List.filter_cons_of_neg (by simpa using hne)]

theorem Answers.set {keys : List Bytes} {answers : List (Option Answer)} {k : ℕ} {a : Answer}
    (h : Answers keys answers) (hk : keys[k]? = some a.res.key) :
    Answers keys (answers.set k (some a)) := by
  refine ⟨by rw [List.length_set, h.1], fun j b hj => ?_⟩
  rw [List.getElem?_set] at hj
  split_ifs at hj with hkj
  · cases hj
    rwa [← hkj]
  · exact h.2 j b hj

variable {m : Multi} {w : List (ℕ × Bytes)} {k : ℕ} {key : Bytes} {a : Option Answer}

/-- The requests that are left when one of them is answered. -/
theorem MultiGet.waiting_answered (h : MultiGet o s n r requireCas)
    (hk : (s.answers n)[k]? = some none)
    (hpeq : p = ⟨n, .get key, .getMulti requireCas (k * 2)⟩) (hp : s.conn.pending[i]? = some p) :
    (∀ q ∈ (s.conn.answered i p m w).waiting n, ∃ j key, ((s.answers n).set k a)[j]? = some none ∧
      r.keys[j]? = some key ∧ q = ⟨n, .get key, .getMulti requireCas (j * 2)⟩) ∧
    (a ≠ none → ∀ j, ((s.answers n).set k a)[j]? = some none →
      ((s.conn.answered i p m w).waiting n).countP
        (·.callback == .getMulti requireCas (j * 2)) = 1) := by
  have hget : ∀ j, k ≠ j → ((s.answers n).set k a)[j]? = (s.answers n)[j]? :=
    fun j hj => List.getElem?_set_ne hj
  constructor
  · intro q hq
    have hold : q ∈ s.conn.waiting n :=
      List.mem_filter.2 ⟨List.mem_of_mem_eraseIdx (List.mem_filter.1 hq).1, (List.mem_filter.1 hq).2⟩
    obtain ⟨j, key', hj, hkey', hqeq⟩ := h.waiting q hold
    -- the only request for that key was the one that is answered
    have hne : k ≠ j := by
      rintro rfl
      have hcount := waiting_erase (n := n) (m := m) (w := w) hp
        (·.callback == .getMulti requireCas (k * 2))
      rw [h.once k hk] at hcount
      have hpos : 0 < ((s.conn.answered i p m w).waiting n).countP
          (·.callback == .getMulti requireCas (k * 2)) :=
        Counting.countP_pos_of_mem hq (by simp [hqeq])
      have hf : (p.callback == .getMulti requireCas (k * 2) && p.command == n) = true := by
        simp [hpeq]
      rw [hf, Bool.toNat_true] at hcount
      omega
    exact ⟨j, key', (hget j hne).trans hj, hkey', hqeq⟩
  · intro ha j hj
    have hne : k ≠ j := by
      rintro rfl
      rw [List.getElem?_set_self (List.getElem?_eq_some_iff.1 hk).1] at hj
      exact ha (Option.some.inj hj)
    have hcount := waiting_erase (n := n) (m := m) (w := w) hp
      (·.callback == .getMulti requireCas (j * 2))
    rw [hget j hne] at hj
    rw [h.once j hj] at hcount
    have hf : (p.callback == .getMulti requireCas (j * 2) && p.command == n) = false := by
      rw [Bool.and_eq_false_iff, beq_eq_false_iff_ne, hpeq]
      left
      simp only [ne_eq, Callback.getMulti.injEq, true_and]
      omega
    rwa [hf, Bool.toNat_false, Nat.add_zero] at hcount

theorem Conn.waiting_answered_eq_nil {c : Conn} (hs : Sound c) (hp : c.pending[i]? = some p)
    (hn : p.command = n) : (c.answered i p m w).awaits n =
      !(p.callback.share (c.shared n) == 1) := by
  have haw : c.awaits n = true := List.any_eq_true.2 ⟨p, List.mem_of_getElem? hp, by simp [hn]⟩
  rw [awaits_answered hs hp, haw, hn, Bool.true_and, beq_self_eq_true, Bool.true_and]

/-- The connection once the request for the key at `k` is answered. -/
theorem MultiGet.answered (h : MultiGet o s n r requireCas) (hs : Sound s.conn) {s' : Traced}
    {res : ResGet} {sent : Option Bytes} (hk : (s.answers n)[k]? = some none)
    (hkey : r.keys[k]? = some res.key)
    (hpeq : p = ⟨n, .get res.key, .getMulti requireCas (k * 2)⟩)
    (hp : s.conn.pending[i]? = some p)
    (hm : responseGetMulti o s.conn.systemTime requireCas (k * 2) res (s.conn.shared n) = (m, sent))
    (ha : s'.answers n = (s.answers n).set k (some ⟨s.conn.systemTime, res⟩))
    (hc : s'.conn = s.conn.answered i p m
      (if s.conn.valid then s.conn.written ++ sent.toList.map (n, ·) else s.conn.written)) :
    MultiGet o s' n r requireCas := by
  have hcommand : p.command = n := by rw [hpeq]
  have hne : s.conn.waiting n ≠ [] :=
    List.ne_nil_of_mem (List.mem_filter.2 ⟨List.mem_of_getElem? hp, by simp [hcommand]⟩)
  have hans : Answers r.keys (s'.answers n) := ha ▸ h.answers.set hkey
  obtain ⟨hwaiting, honce⟩ := h.waiting_answered (a := some ⟨s.conn.systemTime, res⟩) hk hpeq hp
  rw [← hc, ← ha] at hwaiting honce
  have haw : s'.conn.awaits n = !((s.conn.shared n).count == 1) := by
    rw [hc, Conn.waiting_answered_eq_nil hs hp hcommand, hpeq]
    rfl
  have hfill : fill o s.conn.systemTime requireCas (k * 2) res (s.conn.shared n).vhead =
      pairs (cells o requireCas (s'.answers n)) ++ [some (crlf ++ text "END\r\n")] := by
    rw [h.vhead hne, fill_pairs hk, ha]
  have hshared : s'.conn.shared n = m := by
    rw [hc, ← hcommand]
    exact Function.update_self _ _ _
  have hwritten : s'.conn.valid = true → s'.writtenFor n = sent.toList := by
    intro hv
    rw [hc] at hv
    have hold := h.written hv
    rw [Conn.awaits_iff.2 hne, if_pos rfl] at hold
    have hv' : s.conn.valid = true := hv
    unfold Traced.writtenFor at hold ⊢
    rw [hc]
    simp only [Conn.answered, hv', if_true, List.filter_append, List.map_append, hold]
    cases sent <;> simp
  unfold responseGetMulti at hm
  simp only [hfill] at hm
  split_ifs at hm with hone
  · obtain ⟨rfl, rfl⟩ := Prod.mk.inj hm
    rw [hone, beq_self_eq_true, Bool.not_true] at haw
    refine ⟨hans, hwaiting, honce (by simp), fun hw => ?_, fun hv => ?_⟩
    · rw [← Conn.awaits_iff, haw] at hw
      cases hw
    · rw [hwritten hv, haw, (gather_strip (text "END\r\n") _).1, joined_cells hans]
      rfl
  · obtain ⟨rfl, rfl⟩ := Prod.mk.inj hm
    rw [beq_eq_false_iff_ne.2 hone, Bool.not_false] at haw
    refine ⟨hans, hwaiting, honce (by simp), fun _ => ?_, fun hv => ?_⟩
    · rw [hshared]
    · rw [hwritten hv, haw]
      rfl

end Answered

/-! ### The command -/

section Command

variable {s : Traced} {r : Request} {x : RequestRetrieval × Bool}

theorem countP_zipIdx {α : Type} (l : List α) (k : ℕ) (hk : k < l.length) :
    l.zipIdx.countP (·.2 == k) = 1 := by
  have h : l.zipIdx.countP (·.2 == k) = (l.zipIdx.map Prod.snd).countP (· == k) := by
    rw [List.countP_map]
    rfl
  rw [h, List.zipIdx_map_snd, ← List.range_eq_range']
  exact List.count_eq_one_of_mem List.nodup_range (List.mem_range.2 hk)

theorem command_multi (c : Conn) (hm : r.multi = some x) : c.command o r = { c with
    commands := c.commands ++ [r]
    pending := c.pending ++ x.1.keys.zipIdx.map fun k =>
      ⟨c.commands.length, .get k.1, .getMulti x.2 (k.2 * 2)⟩
    shared := Function.update c.shared c.commands.length
      ⟨x.1.keys.length,
        List.replicate (2 * x.1.keys.length) none ++ [some (text "\r\nEND\r\n")]⟩ } := by
  have hcase : ∀ (q : RequestRetrieval) (b : Bool), (if q.keys.length = 1 then none else some (q, b)) =
      some x → q.keys.length ≠ 1 ∧ x = (q, b) := by
    intro q b hq
    split_ifs at hq with hone
    exact ⟨hone, (Option.some.inj hq).symm⟩
  cases r with
  | get q =>
    obtain ⟨hone, rfl⟩ := hcase q false hm
    simp only [Conn.command, handle, requestGet, if_neg hone, requestGetMulti, List.map_map]
    rfl
  | gets q =>
    obtain ⟨hone, rfl⟩ := hcase q true hm
    simp only [Conn.command, handle, requestGets, if_neg hone, requestGetMulti, List.map_map]
    rfl
  | _ => cases hm

/-- A command for several keys, as it comes. -/
theorem MultiGet.command {s' : Traced} (hs : Sound s.conn)
    (hw : ∀ w ∈ s.conn.written, w.1 < s.conn.commands.length) (hm : r.multi = some x)
    (hc : s'.conn = s.conn.command o r) (ha : s'.answers = s.start r) :
    MultiGet o s' s.conn.commands.length x.1 x.2 := by
  have hans : s'.answers s.conn.commands.length = List.replicate x.1.keys.length none := by
    rw [ha, Traced.start, hm]
    exact Function.update_self _ _ _
  rw [command_multi s.conn hm] at hc
  have hwaiting : s'.conn.waiting s.conn.commands.length =
      x.1.keys.zipIdx.map fun k => ⟨s.conn.commands.length, .get k.1, .getMulti x.2 (k.2 * 2)⟩ := by
    rw [hc, Conn.waiting, List.filter_append, List.filter_eq_nil_iff.2, List.nil_append,
      List.filter_eq_self.2]
    · intro p hp
      obtain ⟨k, -, rfl⟩ := List.mem_map.1 hp
      simp
    · intro p hp he
      have := hs.lt hp
      simp only [beq_iff_eq] at he
      omega
  have hnone : ∀ k, (List.replicate x.1.keys.length (none : Option Answer))[k]? = some none ↔
      k < x.1.keys.length := by
    intro k
    rw [List.getElem?_replicate]
    split_ifs with hk <;> simp [hk]
  refine ⟨?_, fun p hp => ?_, fun k hk => ?_, fun _ => ?_, fun _ => ?_⟩
  · rw [hans]
    refine ⟨List.length_replicate, fun k a hk => ?_⟩
    rw [List.getElem?_replicate] at hk
    split_ifs at hk
    cases hk
  · rw [hwaiting] at hp
    obtain ⟨⟨key, k⟩, hk, rfl⟩ := List.mem_map.1 hp
    have hkey := List.mem_zipIdx_iff_getElem?.1 hk
    rw [hans]
    exact ⟨k, key, (hnone k).2 (List.getElem?_eq_some_iff.1 hkey).1, hkey, rfl⟩
  · rw [hans, hnone] at hk
    rw [hwaiting, List.countP_map, ← countP_zipIdx x.1.keys k hk]
    apply List.countP_congr
    intro y _
    simp only [Function.comp_apply, beq_iff_eq, Callback.getMulti.injEq, true_and]
    omega
  · rw [hans, cells, List.map_replicate, hc]
    simp only [Function.update_self]
    rw [← pairs_replicate]
    rfl
  · have haw : s'.conn.awaits s.conn.commands.length = true := by
      rw [Conn.awaits_iff, hwaiting]
      simpa using x.1.keys_ne
    rw [haw, if_pos rfl, Traced.writtenFor, hc, List.filter_eq_nil_iff.2]
    · rfl
    · intro w hw' he
      have := hw w hw'
      simp only [beq_iff_eq] at he
      omega

end Command

/-! ## A run -/

/-- Every command for several keys is as told, and nothing was written for a command to come. -/
structure Tracing (o : Options) (s : Traced) : Prop where
  sound : Sound s.conn
  written_lt : ∀ w ∈ s.conn.written, w.1 < s.conn.commands.length
  multi : ∀ n r x, s.conn.commands[n]? = some r → r.multi = some x → MultiGet o s n x.1 x.2

section Step

variable {s s' : Traced}

/-- What is written for another command. -/
theorem writtenFor_append {n k : ℕ} {sent : List Bytes} (hne : n ≠ k)
    (hw : s'.conn.written = s.conn.written ++ sent.map (k, ·)) :
    s'.writtenFor n = s.writtenFor n := by
  have hnil : (sent.map (k, ·)).filter (·.1 == n) = [] := by
    rw [List.filter_eq_nil_iff]
    intro w hw he
    obtain ⟨b, -, rfl⟩ := List.mem_map.1 hw
    simp only [beq_iff_eq] at he
    exact hne he.symm
  rw [Traced.writtenFor, hw, List.filter_append, hnil, List.append_nil, Traced.writtenFor]

theorem Tracing.command (h : Tracing o s) {r : Request} (hc : s'.conn = s.conn.command o r)
    (ha : s'.answers = s.start r) : Tracing o s' := by
  -- whatever the command, it touches what is its own
  obtain ⟨new, shared, sent, hnew, hshared, heq⟩ : ∃ new shared, ∃ sent : List Bytes,
      (∀ p ∈ new, p.command = s.conn.commands.length) ∧
      (∀ k ≠ s.conn.commands.length, shared k = s.conn.shared k) ∧
      s.conn.command o r = { s.conn with
        commands := s.conn.commands ++ [r]
        pending := s.conn.pending ++ new
        shared := shared
        written := s.conn.written ++ sent.map (s.conn.commands.length, ·) } := by
    rcases command_cases o s.conn r with ⟨-, b, he⟩ | ⟨-, new, shared, hsub, he⟩
    · exact ⟨[], s.conn.shared, [b], by simp, fun _ _ => rfl, by rw [he]; simp⟩
    · exact ⟨new, shared, [], hsub.command, hsub.frame, by rw [he]; simp⟩
  refine ⟨hc ▸ h.sound.command, fun w hw => ?_, fun n r' x hn hm => ?_⟩
  · rw [hc, heq] at hw ⊢
    rw [List.length_append]
    rcases List.mem_append.1 hw with hw | hw
    · exact Nat.lt_succ_of_lt (h.written_lt w hw)
    · obtain ⟨b, -, rfl⟩ := List.mem_map.1 hw
      exact Nat.lt_succ_self _
  · rw [hc, heq] at hn
    rcases Nat.lt_trichotomy n s.conn.commands.length with hlt | rfl | hgt
    · rw [List.getElem?_append_left hlt] at hn
      have hne : n ≠ s.conn.commands.length := Nat.ne_of_lt hlt
      refine (h.multi n r' x hn hm).frame ?_ ?_ ?_ (fun _ => ?_) fun hv => ?_
      · rw [ha, Traced.start]
        cases r.multi with
        | none => rfl
        | some y => exact Function.update_of_ne hne _ _
      · have hnil : new.filter (·.command == n) = [] := by
          rw [List.filter_eq_nil_iff]
          intro p hp he
          rw [hnew p hp, beq_iff_eq] at he
          exact hne he.symm
        rw [hc, heq, Conn.waiting, List.filter_append, hnil, List.append_nil, Conn.waiting]
      · rw [hc, heq]
        exact hshared n hne
      · exact writtenFor_append hne (by rw [hc, heq])
      · rw [hc, heq] at hv
        exact hv
    · rw [List.getElem?_concat_length] at hn
      cases hn
      exact MultiGet.command h.sound h.written_lt hm hc ha
    · rw [List.getElem?_eq_none (by simp; omega)] at hn
      cases hn

theorem Tracing.complete (h : Tracing o s) {i : ℕ} {res : Res} (hk : KeyKept s (.complete i res))
    (hc : s.conn.step o (.complete i res) = some s'.conn) (ha : s'.answers = s.record (.complete i res)) :
    Tracing o s' := by
  have hrespond : s.conn.complete o i res = some s'.conn := hc
  unfold Conn.complete at hrespond
  simp only [Option.bind_eq_bind, Option.bind_eq_some_iff, Option.some.injEq] at hrespond
  obtain ⟨p, hp, ⟨m, sent⟩, hr, heq⟩ := hrespond
  have heq : s'.conn = s.conn.answered i p m (if s.conn.valid then
      s.conn.written ++ sent.toList.map (p.command, ·) else s.conn.written) := heq.symm
  refine ⟨step_sound h.sound hc, fun w hw => ?_, fun n r x hn hm => ?_⟩
  · rw [heq] at hw ⊢
    simp only [Conn.answered] at hw ⊢
    split_ifs at hw
    · rcases List.mem_append.1 hw with hw | hw
      · exact h.written_lt w hw
      · obtain ⟨b, -, rfl⟩ := List.mem_map.1 hw
        exact h.sound.lt (List.mem_of_getElem? hp)
    · exact h.written_lt w hw
  · have hold := h.multi n r x (by rw [heq] at hn; exact hn) hm
    by_cases hcommand : p.command = n
    · obtain ⟨k, key, hnone, hkey, hpeq⟩ :=
        hold.waiting p (List.mem_filter.2 ⟨List.mem_of_getElem? hp, by simp [hcommand]⟩)
      have hcb : p.callback = .getMulti x.2 (k * 2) := by rw [hpeq]
      rw [hcommand, hcb] at hr
      cases res with
      | get g =>
        obtain rfl : g.key = key := hk p hp key (by rw [hpeq])
        refine hold.answered h.sound hnone hkey hpeq hp (Option.some.inj hr) ?_ ?_
        · rw [ha]
          simp only [Traced.record, hp, Option.map_some, Option.getD_some, Traced.answer, hcb,
            hcommand, Function.update_self]
          rw [Nat.mul_div_cancel k (by decide)]
        · rw [← hcommand]
          exact heq
      | _ => cases hr
    · have hne : n ≠ p.command := Ne.symm hcommand
      refine hold.frame ?_ ?_ ?_ (fun hv => ?_) fun hv => ?_
      · rw [ha]
        cases res with
        | get g =>
          simp only [Traced.record, hp, Option.map_some, Option.getD_some, Traced.answer]
          cases p.callback with
          | getMulti b offset => exact Function.update_of_ne hne _ _
          | _ => rfl
        | _ => rfl
      · rw [heq]
        exact waiting_answered_of_ne hp hcommand
      · rw [heq]
        exact Function.update_of_ne hne _ _
      · rw [heq] at hv
        have hv : s.conn.valid = true := hv
        have hw : s'.conn.written = s.conn.written ++ sent.toList.map (p.command, ·) := by
          rw [heq]
          simp only [Conn.answered, hv, if_true]
        exact writtenFor_append hne hw
      · rw [heq] at hv
        exact hv

theorem Tracing.step {e : Event} (h : Tracing o s) (hk : KeyKept s e)
    (hst : s.step o e = some s') : Tracing o s' := by
  obtain ⟨c, hc, rfl⟩ := Option.map_eq_some_iff.1 hst
  have hsound := step_sound h.sound hc
  cases e with
  | command r =>
    simp only [Conn.step] at hc
    split_ifs at hc
    cases hc
    exact h.command rfl rfl
  | complete i res => exact h.complete hk hc rfl
  | updateSystemTime t =>
    cases hc
    exact ⟨hsound, h.written_lt, fun n r x hn hm =>
      (h.multi n r x hn hm).frame rfl rfl rfl (fun _ => rfl) id⟩
  | close =>
    simp only [Conn.step] at hc
    split_ifs at hc
    cases hc
    exact ⟨hsound, h.written_lt, fun n r x hn hm =>
      (h.multi n r x hn hm).frame rfl rfl rfl (fun _ => rfl) fun hv => by cases hv⟩

theorem tracing_init (t : UInt32) : Tracing o (.init t) where
  sound := ⟨by simp [Traced.init, Conn.init], by simp [Traced.init, Conn.init]⟩
  written_lt := by simp [Traced.init, Conn.init]
  multi := by simp [Traced.init, Conn.init]

end Step

/-- In every run, what was written for a command for several keys is nothing as long as one of its
keys is not answered, and then one reply, with the values of the keys that were found in the order
of the keys, whatever the order of the answers. -/
theorem multi_get_reply {t : UInt32} {es : List Event} {s : Traced}
    (hrun : Run (Traced.step o) KeyKept (.init t) es s) (hopen : s.conn.valid = true) {n : ℕ}
    {r : Request} {q : RequestRetrieval} {requireCas : Bool} (hn : s.conn.commands[n]? = some r)
    (hm : r.multi = some (q, requireCas)) :
    (s.answers n).length = q.keys.length ∧
      s.writtenFor n = if (s.answers n).all (·.isSome) then
        [multiReply o requireCas q.keys (s.answers n)] else [] := by
  have h := (hrun.inv (fun _ _ _ h hk hst => h.step hk hst) (tracing_init t)).multi n r _ hn hm
  refine ⟨h.answers.1, ?_⟩
  rw [h.written hopen, h.awaits_eq]
  cases (s.answers n).all (·.isSome) <;> rfl

/-- `get a b`. -/
def getTwo : RequestRetrieval := ⟨[[97], [98]], List.cons_ne_nil _ _⟩

/-- The second key is answered first, and is there; the first is not. -/
def secondFound : List Event :=
  [.command (.get getTwo), .complete 1 (.get ⟨false, [98], some [118], 0⟩),
    .complete 0 (.get ⟨false, [97], none, 0⟩)]

theorem multi_get_reply_getTwo : ∃ s,
    Run (Traced.step ⟨false, false⟩) KeyKept (.init 0) secondFound s ∧
      s.writtenFor 0 = [text "VALUE b 0 1\r\nv\r\nEND\r\n"] := by
  have hrun : ∃ s, Run (Traced.step ⟨false, false⟩) KeyKept (.init 0) secondFound s ∧
      s.conn.valid = true ∧ s.conn.commands[0]? = some (.get getTwo) ∧
      s.answers 0 =
        [some ⟨0, ⟨false, [97], none, 0⟩⟩, some ⟨0, ⟨false, [98], some [118], 0⟩⟩] := by
    refine ⟨_, .cons trivial rfl (.cons ?_ rfl (.cons ?_ rfl (.nil _))), rfl, rfl, rfl⟩
    all_goals
      rintro p ⟨⟩ key ⟨⟩
      rfl
  obtain ⟨s, hrun, hopen, hn, hanswers⟩ := hrun
  obtain ⟨-, hwritten⟩ := multi_get_reply hrun hopen hn rfl
  rw [hanswers] at hwritten
  refine ⟨s, hrun, hwritten.trans ?_⟩
  decide

end Kumofs.Gate.Text
