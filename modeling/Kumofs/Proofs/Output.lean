import Kumofs.Wavy.Output

/-!
# What is written, and in which order

Every vector leaves its queue once and in order, and its finalizer is called then. It leaves when
it is written, unless a failure clears the queue.
-/

namespace Kumofs.Wavy

variable {ρ : Type*} {f g : Fd ρ} {vec : List (Bytes × Option ρ)} {wl : WriteResult} {ok r : Bool}

/-- Where the worker gives up. -/
def WriteResult.fails (wl : WriteResult) : Bool := wl = .failed ∨ wl = .wrote 0

namespace Fd

/-! ## What an operation does -/

theorem tryWriteInitial_cases (h : f.tryWriteInitial wl = some (g, r)) :
    f.skipZero.empty = true ∧ g = f.skipZero ∧ r = true ∨
    f.skipZero.empty = false ∧
      (wl = .again ∧ g = f.skipZero ∧ r = false ∨
        wl.fails = true ∧ g = f.skipZero.initialRemove ∧ r = true ∨
        ∃ n, wl = .wrote n ∧ 0 < n ∧ n ≤ f.skipZero.offered.length ∧ g = f.skipZero.wrote n ∧
          r = g.empty) := by
  unfold tryWriteInitial at h
  simp only [] at h
  split_ifs at h with he
  · cases h
    exact .inl ⟨he, rfl, rfl⟩
  refine .inr ⟨Bool.eq_false_of_not_eq_true he, ?_⟩
  split at h
  · cases h
    exact .inl ⟨rfl, rfl, rfl⟩
  · cases h
    exact .inr (.inl ⟨rfl, rfl, rfl⟩)
  · split_ifs at h with h0 hn
    · cases h
      exact .inr (.inl ⟨by simp [WriteResult.fails, h0], rfl, rfl⟩)
    · cases h
      exact .inr (.inr ⟨_, rfl, Nat.pos_of_ne_zero h0, hn, rfl, rfl⟩)

theorem tryWrite_cases (h : f.tryWrite wl ok = some g) :
    f.skipZero.empty = true ∧ g = f.skipZero.successRemove ∨
    f.skipZero.empty = false ∧
      (wl = .again ∧ g = f.skipZero ∨ wl.fails = true ∧ g = f.skipZero.failedRemove ∨
        ∃ n, wl = .wrote n ∧ 0 < n ∧ n ≤ f.skipZero.offered.length ∧
          ((f.skipZero.wrote n).empty = true ∧ g = (f.skipZero.wrote n).successRemove ∨
            (f.skipZero.wrote n).empty = false ∧ g = (f.skipZero.wrote n).shotReactivate ok)) := by
  unfold tryWrite at h
  simp only [] at h
  split_ifs at h with he
  · cases h
    exact .inl ⟨he, rfl⟩
  refine .inr ⟨Bool.eq_false_of_not_eq_true he, ?_⟩
  split at h
  · cases h
    exact .inl ⟨rfl, rfl⟩
  · cases h
    exact .inr (.inl ⟨rfl, rfl⟩)
  · split_ifs at h with h0 hn hw
    · cases h
      exact .inr (.inl ⟨by simp [WriteResult.fails, h0], rfl⟩)
    · cases h
      exact .inr (.inr ⟨_, rfl, Nat.pos_of_ne_zero h0, hn, .inl ⟨hw, rfl⟩⟩)
    · cases h
      exact .inr (.inr ⟨_, rfl, Nat.pos_of_ne_zero h0, hn, .inr
        ⟨Bool.eq_false_of_not_eq_true hw, rfl⟩⟩)

theorem writev_cases (h : f.writev vec wl ok = some g) :
    f.empty = false ∧ g = f.push vec ∨
    f.empty = true ∧ ∃ q r, (f.push vec).tryWriteInitial wl = some (q, r) ∧
      (r = true ∧ g = q ∨ r = false ∧ g = q.watch ok) := by
  unfold writev at h
  split_ifs at h with he
  · obtain ⟨⟨q, r⟩, hq, rfl⟩ := Option.map_eq_some_iff.1 h
    refine .inr ⟨he, q, r, hq, ?_⟩
    cases r
    · exact .inr ⟨rfl, rfl⟩
    · exact .inl ⟨rfl, rfl⟩
  · cases h
    exact .inl ⟨Bool.eq_false_of_not_eq_true he, rfl⟩

theorem watch_cases (f : Fd ρ) (ok : Bool) :
    ok = true ∧ f.notify = .unwatched ∧ f.watch ok = { f with notify := .armed } ∨
    ¬ (ok = true ∧ f.notify = .unwatched) ∧ f.watch ok = f.failedRemove := by
  unfold watch addNotify Notify.addNotify
  by_cases h : ok = true ∧ f.notify = .unwatched
  · exact .inl ⟨h.1, h.2, by rw [if_pos h]; rfl⟩
  · exact .inr ⟨h, by rw [if_neg h]; rfl⟩

/-! ## What the operations keep -/

/-- A property of queues that writing for them keeps, whatever the edge has. -/
structure Kept (I : Fd ρ → Prop) : Prop where
  edge : ∀ f m b, I f → I { f with notify := m, broken := b }
  skipZero : ∀ f, I f → I f.skipZero
  wrote : ∀ f n, n ≤ f.offered.length → I f → I (f.wrote n)

variable {I : Fd ρ → Prop}

theorem Kept.shotReactivate (hI : Kept I) (hf : I f) : I (f.shotReactivate ok) :=
  hI.edge f _ f.broken hf

theorem Kept.watch (hI : Kept I) (hfails : ¬ (ok = true ∧ f.notify = .unwatched) → I f.clear)
    (hf : I f) : I (f.watch ok) := by
  obtain ⟨-, -, h⟩ | ⟨hno, h⟩ := watch_cases f ok
  · rw [h]
    exact hI.edge f .armed f.broken hf
  · rw [h]
    exact hI.edge f.clear .unwatched true (hfails hno)

theorem Kept.tryWriteInitial (hI : Kept I) (hfails : wl.fails = true → ∀ f, I f → I f.clear)
    (h : f.tryWriteInitial wl = some (g, r)) (hf : I f) : I g := by
  have hs := hI.skipZero f hf
  obtain ⟨-, rfl, -⟩ | ⟨-, ⟨-, rfl, -⟩ | ⟨hw, rfl, -⟩ | ⟨n, -, -, hn, rfl, -⟩⟩ :=
    tryWriteInitial_cases h
  · exact hs
  · exact hs
  · exact hI.edge _ f.skipZero.clear.notify true (hfails hw _ hs)
  · exact hI.wrote _ n hn hs

theorem Kept.tryWrite (hI : Kept I) (hfails : wl.fails = true → ∀ f, I f → I f.clear)
    (h : f.tryWrite wl ok = some g) (hf : I f) : I g := by
  have hs := hI.skipZero f hf
  obtain ⟨-, rfl⟩ | ⟨-, ⟨-, rfl⟩ | ⟨hw, rfl⟩ | ⟨n, -, -, hn, ⟨-, rfl⟩ | ⟨-, rfl⟩⟩⟩ :=
    tryWrite_cases h
  · exact hI.edge _ .unwatched f.skipZero.broken hs
  · exact hs
  · exact hI.edge f.skipZero.clear .unwatched true (hfails hw _ hs)
  · exact hI.edge _ .unwatched (f.skipZero.wrote n).broken (hI.wrote _ n hn hs)
  · exact hI.shotReactivate (hI.wrote _ n hn hs)

theorem tryWriteInitial_notify (h : f.tryWriteInitial wl = some (g, r)) : g.notify = f.notify := by
  obtain ⟨-, rfl, -⟩ | ⟨-, ⟨-, rfl, -⟩ | ⟨-, rfl, -⟩ | ⟨n, -, -, -, rfl, -⟩⟩ :=
    tryWriteInitial_cases h <;> rfl

/-- An fd whose queue is empty is not in the edge. -/
def Idle (f : Fd ρ) : Prop := f.empty = true → f.notify = .unwatched

theorem Kept.writev (hI : Kept I) (hidle : f.Idle)
    (hfails : wl.fails = true ∨ ok = false → ∀ f, I f → I f.clear)
    (h : f.writev vec wl ok = some g) (hf : I (f.push vec)) : I g := by
  obtain ⟨-, rfl⟩ | ⟨he, q, r, hq, ⟨-, rfl⟩ | ⟨-, rfl⟩⟩ := writev_cases h
  · exact hf
  · exact hI.tryWriteInitial (fun hw => hfails (.inl hw)) hq hf
  · have hqI := hI.tryWriteInitial (fun hw => hfails (.inl hw)) hq hf
    refine hI.watch (fun hno => hfails (.inr ?_) _ hqI) hqI
    have hn : q.notify = .unwatched := (tryWriteInitial_notify hq).trans (hidle he)
    simpa [hn] using hno

/-! ## Requests -/

/-- The finalizers of an fd, those that were called first. -/
def requests (f : Fd ρ) : List ρ := f.finalized ++ f.ctx.reqvec.reduceOption

theorem requests_consumed (f : Fd ρ) (num : ℕ) : (f.consumed num).requests = f.requests := by
  unfold requests consumed
  simp only [List.append_assoc]
  rw [← List.reduceOption_append, List.take_append_drop]

theorem requests_push (f : Fd ρ) :
    (f.push vec).requests = f.requests ++ (vec.map Prod.snd).reduceOption := by
  unfold requests push
  simp only [List.reduceOption_append, List.append_assoc]

theorem kept_requests (l : List ρ) : Kept (ρ := ρ) (·.requests = l) where
  edge _ _ _ hf := hf
  skipZero f hf := (requests_consumed f _).trans hf
  wrote f _ _ hf := (requests_consumed { f with ctx := ⟨_, f.ctx.reqvec⟩ } _).trans hf

theorem length_advance : ∀ (wl : ℕ) (bufvec : List Bytes),
    (advance wl bufvec).2.length = bufvec.length
  | _, [] => rfl
  | _, v :: vs => by
    unfold advance
    split
    · simp [length_advance _ vs]
    · rfl

/-- As many requests as vectors. -/
def Matched (f : Fd ρ) : Prop := f.ctx.reqvec.length = f.ctx.bufvec.length

theorem Matched.consumed (hf : f.Matched) (num : ℕ) : (f.consumed num).Matched := by
  unfold Matched Fd.consumed
  simp only [List.length_drop]
  rw [show f.ctx.reqvec.length = f.ctx.bufvec.length from hf]

theorem Matched.push (hf : f.Matched) : (f.push vec).Matched := by
  unfold Matched Fd.push
  simp only [List.length_append, List.length_map]
  rw [show f.ctx.reqvec.length = f.ctx.bufvec.length from hf]

theorem kept_matched : Kept (ρ := ρ) Matched where
  edge _ _ _ hf := hf
  skipZero _ hf := hf.consumed _
  wrote f n _ hf := by
    have hadv : Matched { f with ctx := ⟨(advance n f.ctx.bufvec).2, f.ctx.reqvec⟩ } := by
      unfold Matched
      rw [length_advance]
      exact hf
    exact hadv.consumed _

/-! ## Bytes -/

/-- `bufvec` is what is left of `vecs`, of the first of which `p` was written. -/
inductive Behind (p : Bytes) : List Bytes → List Bytes → Prop
  | nil : p = [] → Behind p [] []
  | cons (b : Bytes) (bs : List Bytes) : Behind p (b :: bs) ((p ++ b) :: bs)

variable {p q : Bytes} {bufvec bufvec' vecs : List Bytes}

theorem Behind.refl : ∀ bufvec, Behind [] bufvec bufvec
  | [] => .nil rfl
  | b :: bs => .cons b bs

theorem Behind.append (h : Behind p bufvec vecs) (l : List Bytes) :
    Behind p (bufvec ++ l) (vecs ++ l) := by
  cases h with
  | nil hp =>
    subst hp
    exact .refl l
  | cons b bs => exact .cons b (bs ++ l)

theorem Behind.trans (h : Behind p bufvec vecs) (h' : Behind q bufvec' bufvec) :
    Behind (p ++ q) bufvec' vecs := by
  cases h' with
  | nil hq =>
    subst hq
    rwa [List.append_nil]
  | cons b bs =>
    cases h
    rw [← List.append_assoc]
    exact .cons b bs

theorem Behind.flatten (h : Behind p bufvec vecs) : vecs.flatten = p ++ bufvec.flatten := by
  cases h with
  | nil hp => simp [hp]
  | cons b bs => simp

theorem Behind.drop (h : Behind p bufvec vecs) : ∀ k, ∃ q,
    p ++ (bufvec.take k).flatten = (vecs.take k).flatten ++ q ∧
      Behind q (bufvec.drop k) (vecs.drop k)
  | 0 => ⟨p, by simp, h⟩
  | k + 1 => by
    cases h with
    | nil hp => exact ⟨[], by simp [hp], .nil rfl⟩
    | cons b bs => exact ⟨[], by simp, .refl (bs.drop k)⟩

/-- The bytes that are written are those of the vectors that are done with, and a part of the
next. -/
theorem advance_spec : ∀ (n : ℕ) (bufvec : List Bytes), n ≤ bufvec.flatten.length → ∃ q,
    bufvec.flatten.take n = (bufvec.take (advance n bufvec).1).flatten ++ q ∧
      Behind q ((advance n bufvec).2.drop (advance n bufvec).1)
        (bufvec.drop (advance n bufvec).1)
  | n, [], hn => ⟨[], by simp [advance], .nil rfl⟩
  | n, v :: vs, hn => by
    rw [List.flatten_cons, List.length_append] at hn
    unfold advance
    split_ifs with hv
    · obtain ⟨q, hq, hb⟩ := advance_spec (n - v.length) vs (by omega)
      refine ⟨q, ?_, hb⟩
      rw [List.flatten_cons, List.take_append, List.take_of_length_le hv, hq,
        List.take_succ_cons, List.flatten_cons, List.append_assoc]
    · refine ⟨v.take n, ?_, ?_⟩
      · rw [List.flatten_cons, List.take_append_of_le_length (by omega)]
        rfl
      · have hb := Behind.cons (p := v.take n) (v.drop n) vs
        rwa [List.take_append_drop] at hb

theorem offered_initial (f : Fd ρ) : f.offered <+: f.ctx.bufvec.flatten := by
  unfold offered
  conv_rhs => rw [← List.take_append_drop writevLimit f.ctx.bufvec]
  rw [List.flatten_append]
  exact List.prefix_append _ _

theorem take_offered {n : ℕ} (hn : n ≤ f.offered.length) :
    f.offered.take n = f.ctx.bufvec.flatten.take n := by
  obtain ⟨t, ht⟩ := offered_initial f
  rw [← ht, List.take_append_of_le_length hn]

theorem le_flatten {n : ℕ} (hn : n ≤ f.offered.length) : n ≤ f.ctx.bufvec.flatten.length :=
  hn.trans (offered_initial f).length_le

/-- Of the vectors that were queued the first are gone, each with its finalizer called after it was
written, and a part of the next is written. -/
def Sent (queued : List (Bytes × Option ρ)) (f : Fd ρ) : Prop :=
  ∃ gone left p, queued = gone ++ left ∧ f.finalized = (gone.map Prod.snd).reduceOption ∧
    f.ctx.reqvec = left.map Prod.snd ∧ f.written = (gone.map Prod.fst).flatten ++ p ∧
    Behind p f.ctx.bufvec (left.map Prod.fst)

variable {queued : List (Bytes × Option ρ)}

theorem Sent.push (h : Sent queued f) : Sent (queued ++ vec) (f.push vec) := by
  obtain ⟨gone, left, p, hq, hfin, hreq, hw, hb⟩ := h
  refine ⟨gone, left ++ vec, p, by rw [hq, List.append_assoc], hfin, ?_, hw, ?_⟩
  · rw [List.map_append, ← hreq]
    rfl
  · rw [List.map_append]
    exact hb.append _

/-- The first `k` vectors leave, their bytes written. -/
theorem Sent.leave {k : ℕ} (h : Sent queued f)
    (hw : g.written = f.written ++ (f.ctx.bufvec.take k).flatten ++ q)
    (hb : Behind q g.ctx.bufvec (f.ctx.bufvec.drop k)) (hreq : g.ctx.reqvec = f.ctx.reqvec.drop k)
    (hfin : g.finalized = f.finalized ++ (f.ctx.reqvec.take k).reduceOption) : Sent queued g := by
  obtain ⟨gone, left, p, hq, hfin', hreq', hw', hb'⟩ := h
  obtain ⟨p', hp', hb''⟩ := hb'.drop k
  refine ⟨gone ++ left.take k, left.drop k, p' ++ q, ?_, ?_, ?_, ?_, ?_⟩
  · rw [hq, List.append_assoc, List.take_append_drop]
  · rw [hfin, hfin', hreq', List.map_append, List.reduceOption_append, List.map_take]
  · rw [hreq, hreq', List.map_drop]
  · rw [hw, hw', List.append_assoc _ p, hp', List.map_append, List.flatten_append, List.map_take]
    simp only [List.append_assoc]
  · rw [List.map_drop]
    exact hb''.trans hb

theorem takeWhile_flatten : ∀ l : List Bytes, (l.takeWhile (·.isEmpty)).flatten = []
  | [] => rfl
  | [] :: l => by simpa [List.takeWhile_cons] using takeWhile_flatten l
  | (_ :: _) :: l => by simp

theorem kept_sent (queued : List (Bytes × Option ρ)) : Kept (Sent queued) where
  edge _ _ _ hf := hf
  skipZero f hf := by
    refine hf.leave (k := (f.ctx.bufvec.takeWhile (·.isEmpty)).length) (q := []) ?_ (.refl _)
      rfl rfl
    rw [← List.prefix_iff_eq_take.1 (List.takeWhile_prefix _), takeWhile_flatten, List.append_nil,
      List.append_nil]
    rfl
  wrote f n hn hf := by
    obtain ⟨q, hq, hb⟩ := advance_spec n f.ctx.bufvec (le_flatten hn)
    refine hf.leave (k := (advance n f.ctx.bufvec).1) ?_ hb rfl rfl
    rw [List.append_assoc, ← hq, ← take_offered hn]
    rfl

/-- The bytes written and those still queued are among `bytes`, in the same order. -/
def Among (bytes : Bytes) (f : Fd ρ) : Prop := (f.written ++ f.ctx.bufvec.flatten).Sublist bytes

theorem Among.consumed {bytes : Bytes} (h : Among bytes f) (k : ℕ) :
    Among bytes (f.consumed k) := by
  refine List.Sublist.trans (List.Sublist.append_left ?_ _) h
  conv_rhs => rw [← List.take_append_drop k f.ctx.bufvec, List.flatten_append]
  exact List.sublist_append_right _ _

theorem kept_among (bytes : Bytes) : Kept (ρ := ρ) (Among bytes) where
  edge _ _ _ hf := hf
  skipZero f hf := hf.consumed _
  wrote f n hn hf := by
    obtain ⟨q, hq, hb⟩ := advance_spec n f.ctx.bufvec (le_flatten hn)
    have hall : (f.wrote n).written ++ (f.wrote n).ctx.bufvec.flatten =
        f.written ++ f.ctx.bufvec.flatten := by
      show f.written ++ f.offered.take n ++ _ = _
      conv_rhs => rw [← List.take_append_drop (advance n f.ctx.bufvec).1 f.ctx.bufvec,
        List.flatten_append, hb.flatten]
      rw [take_offered hn, hq]
      simp only [List.append_assoc]
      rfl
    unfold Among
    rwa [hall]

/-! ## Fds without vectors -/

theorem Idle.tryWrite (h : f.tryWrite wl ok = some g) : g.Idle := by
  obtain ⟨-, rfl⟩ | ⟨he, ⟨-, rfl⟩ | ⟨-, rfl⟩ | ⟨n, -, -, -, ⟨-, rfl⟩ | ⟨hn, rfl⟩⟩⟩ :=
    tryWrite_cases h
  · exact fun _ => rfl
  · exact fun hg => absurd hg (by simp [he])
  · exact fun _ => rfl
  · exact fun _ => rfl
  · intro hg
    have he : (f.skipZero.wrote n).empty = true := hg
    rw [hn] at he
    cases he

theorem tryWriteInitial_empty (h : f.tryWriteInitial wl = some (g, r)) (hr : r = false) :
    g.empty = false := by
  obtain ⟨-, -, rfl⟩ | ⟨he, ⟨-, rfl, -⟩ | ⟨-, -, rfl⟩ | ⟨n, -, -, -, -, rfl⟩⟩ :=
    tryWriteInitial_cases h
  · cases hr
  · exact he
  · cases hr
  · exact hr

theorem push_empty (he : f.empty = false) : (f.push vec).empty = false := by
  simp only [empty, push, List.isEmpty_eq_false_iff] at he ⊢
  simp [he]

theorem Idle.writev (hf : f.Idle) (h : f.writev vec wl ok = some g) : g.Idle := by
  obtain ⟨he, rfl⟩ | ⟨he, q, r, hq, ⟨-, rfl⟩ | ⟨hr, rfl⟩⟩ := writev_cases h
  · intro hg
    rw [push_empty he] at hg
    cases hg
  · exact fun _ => (tryWriteInitial_notify hq).trans (hf he)
  · obtain ⟨-, -, hw⟩ | ⟨-, hw⟩ := watch_cases q ok <;> rw [hw]
    · intro hg
      have he : q.empty = true := hg
      rw [tryWriteInitial_empty hq hr] at he
      cases he
    · exact fun _ => rfl

/-! ## The first vector -/

/-- The first vector has bytes to write. -/
def Unwritten (f : Fd ρ) : Prop := f.ctx.bufvec.head? ≠ some []

theorem head?_drop_takeWhile : ∀ l : List Bytes,
    (l.drop (l.takeWhile (·.isEmpty)).length).head? ≠ some []
  | [] => by simp
  | [] :: l => by simpa [List.takeWhile_cons] using head?_drop_takeWhile l
  | (_ :: _) :: l => by simp

theorem head?_drop_advance : ∀ (n : ℕ) (bufvec : List Bytes),
    ((advance n bufvec).2.drop (advance n bufvec).1).head? ≠ some []
  | _, [] => by simp [advance]
  | n, v :: vs => by
    unfold advance
    split_ifs with hv
    · exact head?_drop_advance (n - v.length) vs
    · have hne : v.drop n ≠ [] := fun h => hv (List.drop_eq_nil_iff.1 h)
      simpa using hne

theorem unwritten_skipZero (f : Fd ρ) : f.skipZero.Unwritten := head?_drop_takeWhile _

theorem unwritten_wrote (f : Fd ρ) (n : ℕ) : (f.wrote n).Unwritten := head?_drop_advance n _

theorem unwritten_clear (f : Fd ρ) : f.clear.Unwritten := by
  simp [Unwritten, clear, consumed]

theorem unwritten_push (hf : f.Unwritten) (he : f.empty = false) : (f.push vec).Unwritten := by
  unfold Unwritten empty push at *
  cases hb : f.ctx.bufvec with
  | nil => simp [hb] at he
  | cons v vs => simpa [hb] using hf

theorem Unwritten.tryWriteInitial (h : f.tryWriteInitial wl = some (g, r)) : g.Unwritten := by
  obtain ⟨-, rfl, -⟩ | ⟨-, ⟨-, rfl, -⟩ | ⟨-, rfl, -⟩ | ⟨n, -, -, -, rfl, -⟩⟩ :=
    tryWriteInitial_cases h
  · exact unwritten_skipZero f
  · exact unwritten_skipZero f
  · exact unwritten_clear f.skipZero
  · exact unwritten_wrote f.skipZero n

theorem Unwritten.tryWrite (h : f.tryWrite wl ok = some g) : g.Unwritten := by
  obtain ⟨-, rfl⟩ | ⟨-, ⟨-, rfl⟩ | ⟨-, rfl⟩ | ⟨n, -, -, -, ⟨-, rfl⟩ | ⟨-, rfl⟩⟩⟩ :=
    tryWrite_cases h
  · exact unwritten_skipZero f
  · exact unwritten_skipZero f
  · exact unwritten_clear f.skipZero
  · exact unwritten_wrote f.skipZero n
  · exact unwritten_wrote f.skipZero n

theorem Unwritten.writev (hf : f.Unwritten) (h : f.writev vec wl ok = some g) : g.Unwritten := by
  obtain ⟨he, rfl⟩ | ⟨-, q, r, hq, ⟨-, rfl⟩ | ⟨-, rfl⟩⟩ := writev_cases h
  · exact unwritten_push hf he
  · exact Unwritten.tryWriteInitial hq
  · have hqf : q.Unwritten := Unwritten.tryWriteInitial hq
    obtain ⟨-, -, hw⟩ | ⟨-, hw⟩ := watch_cases q ok <;> rw [hw]
    · exact hqf
    · exact unwritten_clear q

/-- Which vectors are gone is what the bytes say that were written. -/
theorem Sent.exactly (h : Sent queued f) (hf : f.Unwritten) :
    f.written ++ f.ctx.bufvec.flatten = (queued.map Prod.fst).flatten ∧
    ∃ n, f.finalized = ((queued.take n).map Prod.snd).reduceOption ∧
      f.ctx.reqvec = (queued.drop n).map Prod.snd ∧
      ∀ i < queued.length, i < n ↔
        ((queued.take (i + 1)).map Prod.fst).flatten.length ≤ f.written.length := by
  obtain ⟨gone, left, p, rfl, hfin, hreq, hw, hb⟩ := h
  refine ⟨?_, gone.length, ?_, ?_, fun i hi => ?_⟩
  · rw [hw, List.map_append, List.flatten_append, hb.flatten, List.append_assoc]
  · rw [List.take_left' rfl, hfin]
  · rw [List.drop_left' rfl, hreq]
  rw [hw, List.length_append]
  constructor
  · intro hlt
    rw [List.take_append_of_le_length (show i + 1 ≤ gone.length from hlt), List.map_take]
    conv_rhs => rw [← List.take_append_drop (i + 1) (gone.map Prod.fst)]
    rw [List.flatten_append, List.length_append]
    omega
  · intro hle
    by_contra hge
    cases left with
    | nil => simp at hi; omega
    | cons e left =>
      cases hbuf : f.ctx.bufvec with
      | nil =>
        rw [hbuf] at hb
        cases hb
      | cons b bs =>
        rw [hbuf, List.map_cons] at hb
        have hb' : e.1 = p ++ b := by
          generalize e.1 = v at hb
          cases hb
          rfl
        have hne : b ≠ [] := fun h0 => hf (by rw [hbuf, h0]; rfl)
        have hpos := List.length_pos_iff.2 hne
        obtain ⟨k, hk⟩ : ∃ k, i + 1 = gone.length + (k + 1) := ⟨i - gone.length, by omega⟩
        rw [hk, List.take_length_add_append, List.take_succ_cons, List.map_append,
          List.flatten_append, List.length_append, List.map_cons, List.flatten_cons,
          List.length_append, hb', List.length_append] at hle
        omega

end Fd

/-! ## Runs -/

namespace Output

open Machine (Run Free)

variable {workers fd : ℕ} {s t : Output ρ} {a : Act ρ} {as : List (Act ρ)}

/-- The vectors that an action puts into the queue of an fd. -/
def queuedBy (fd : ℕ) : Act ρ → List (Bytes × Option ρ)
  | .writev fd' vec _ _ => if fd' = fd then vec else []
  | .wait _ _ | .tryWrite _ _ _ | .close _ => []

/-- A worker writes for the fd. -/
def handles (fd : ℕ) (s : Output ρ) : Act ρ → Bool
  | .tryWrite worker _ _ => (s.backlog worker).head? = some fd
  | .writev _ _ _ _ | .wait _ _ | .close _ => false

@[simp] theorem setFd_self (s : Output ρ) (fd : ℕ) (f : Fd ρ) : (s.setFd fd f).fds fd = f :=
  Function.update_self _ _ _

theorem setFd_of_ne {fd' : ℕ} (s : Output ρ) (f : Fd ρ) (h : fd' ≠ fd) :
    (s.setFd fd f).fds fd' = s.fds fd' := Function.update_of_ne h _ _

/-- What an action does to an fd. -/
inductive Touches (s : Output ρ) (fd : ℕ) : Act ρ → Fd ρ → Prop
  | other {a : Act ρ} : queuedBy fd a = [] → handles fd s a = false → Touches s fd a (s.fds fd)
  | writev {vec : List (Bytes × Option ρ)} {wl : WriteResult} {ok : Bool} {f : Fd ρ} :
      (s.fds fd).writev vec wl ok = some f → Touches s fd (.writev fd vec wl ok) f
  | report {worker : ℕ} {ready : List ℕ} : fd ∈ ready → (s.fds fd).notify = .armed →
      Touches s fd (.wait worker ready) { s.fds fd with notify := .shot }
  | tryWrite {worker : ℕ} {rest : List ℕ} {wl : WriteResult} {ok : Bool} {f : Fd ρ} :
      s.backlog worker = fd :: rest → (s.fds fd).tryWrite wl ok = some f →
        Touches s fd (.tryWrite worker wl ok) f
  | close : Touches s fd (.close fd) (s.fds fd).close

theorem step_touches (h : step workers s a = some t) (fd : ℕ) : Touches s fd a (t.fds fd) := by
  cases a with
  | writev fd' vec wl ok =>
    obtain ⟨f, hf, rfl⟩ := Option.map_eq_some_iff.1 h
    by_cases hfd : fd = fd'
    · subst hfd
      simpa using Touches.writev hf
    · rw [setFd_of_ne _ _ hfd]
      exact .other (by simp [queuedBy, Ne.symm hfd]) rfl
  | wait worker ready =>
    simp only [step] at h
    split_ifs at h with hw
    cases h
    simp only [Output.report]
    split_ifs with hfd
    · exact .report hfd (hw.2.2.2 fd hfd).2
    · exact .other rfl rfl
  | tryWrite worker wl ok =>
    simp only [step] at h
    split at h
    · cases h
    · rename_i fd' rest hb
      obtain ⟨f, hf, rfl⟩ := Option.map_eq_some_iff.1 h
      by_cases hfd : fd = fd'
      · subst hfd
        simpa using Touches.tryWrite hb hf
      · rw [setFd_of_ne _ _ hfd]
        exact .other rfl (by simp [handles, hb, Ne.symm hfd])
  | close fd' =>
    cases h
    by_cases hfd : fd = fd'
    · subst hfd
      simpa using Touches.close
    · rw [setFd_of_ne _ _ hfd]
      exact .other rfl rfl

/-- The fds without vectors are not in an edge. -/
def Idle (s : Output ρ) : Prop := ∀ fd, (s.fds fd).Idle

theorem idle_init : Idle (init (ρ := ρ)) := fun _ _ => rfl

theorem Idle.step (hs : Idle s) (h : step workers s a = some t) : Idle t := by
  intro fd
  have ht := step_touches h fd
  generalize t.fds fd = f at ht
  cases ht with
  | other _ _ => exact hs fd
  | writev hw => exact (hs fd).writev hw
  | report _ ha =>
    intro he
    rw [hs fd he] at ha
    cases ha
  | tryWrite _ hw => exact Fd.Idle.tryWrite hw
  | close => exact fun _ => rfl

/-- The first vector of a queue has bytes to write, whatever fails. -/
theorem run_unwritten {P : Output ρ → Act ρ → Prop} (h : Run (step workers) P init as s)
    (fd : ℕ) : (s.fds fd).Unwritten := by
  refine h.inv (I := fun s => (s.fds fd).Unwritten) (fun s a t hs _ ht => ?_) ?_
  swap
  · simp [Fd.Unwritten, init, Fd.init]
  have htouch := step_touches ht fd
  generalize t.fds fd = f at htouch
  cases htouch with
  | other _ _ => exact hs
  | writev hw => exact hs.writev hw
  | report _ _ => exact hs
  | tryWrite _ hw => exact Fd.Unwritten.tryWrite hw
  | close => exact hs

/-- No call for the fd fails. -/
def Smooth (fd : ℕ) (s : Output ρ) : Act ρ → Prop
  | .writev fd' _ wl ok => fd' = fd → wl.fails = false ∧ ok = true
  | .tryWrite worker wl _ => (s.backlog worker).head? = some fd → wl.fails = false
  | .wait _ _ | .close _ => True

section Kept

variable {P : Output ρ → Act ρ → Prop} {I : List (Bytes × Option ρ) → Fd ρ → Prop}

/-- What is kept of an fd and the vectors queued for it. -/
theorem run_kept (fd : ℕ) (hkept : ∀ l, Fd.Kept (I l))
    (hpush : ∀ l f vec, I l f → I (l ++ vec) (f.push vec))
    (hclear : ∀ s a l f, P s a → ¬ Smooth fd s a → I l f → I l f.clear)
    (hinit : I [] Fd.init) (h : Run (step workers) P init as s) :
    I (as.flatMap (queuedBy fd)) (s.fds fd) := by
  have hstep : ∀ s l a t, (Idle s ∧ I l (s.fds fd)) → P s a → step workers s a = some t →
      Idle t ∧ I (l ++ queuedBy fd a) (t.fds fd) := by
    rintro s l a t ⟨hidle, hI⟩ hp ht
    refine ⟨hidle.step ht, ?_⟩
    have htouch := step_touches ht fd
    generalize t.fds fd = f at htouch
    cases htouch with
    | other ha _ => rwa [ha, List.append_nil]
    | @writev vec wl ok f hw =>
      rw [show queuedBy fd (.writev fd vec wl ok) = vec by simp [queuedBy]]
      refine (hkept _).writev (hidle fd) (fun hf g hg => hclear s _ _ g hp ?_ hg) hw
        (hpush _ _ _ hI)
      intro hs
      obtain ⟨hwl, hok⟩ := hs rfl
      simp [hwl, hok] at hf
    | report _ _ =>
      rw [queuedBy, List.append_nil]
      exact (hkept l).edge _ .shot _ hI
    | @tryWrite worker rest wl ok f hb hw =>
      rw [queuedBy, List.append_nil]
      refine (hkept l).tryWrite (fun hf g hg => hclear s _ _ g hp ?_ hg) hw hI
      intro hs
      rw [hs (by rw [hb]; rfl)] at hf
      cases hf
    | close =>
      rw [queuedBy, List.append_nil]
      exact (hkept l).edge _ .unwatched false hI
  exact (h.inv_flatMap (I := fun s l => Idle s ∧ I l (s.fds fd)) (queuedBy fd) hstep
    ⟨idle_init, hinit⟩).2

end Kept

/-- Every finalizer is called once and in the order of the queue, whatever fails. -/
theorem finalized_append (h : Run (step workers) Free init as s) (fd : ℕ) :
    (s.fds fd).finalized ++ (s.fds fd).ctx.reqvec.reduceOption =
        ((as.flatMap (queuedBy fd)).map Prod.snd).reduceOption ∧
      (s.fds fd).ctx.reqvec.length = (s.fds fd).ctx.bufvec.length := by
  refine run_kept fd (I := fun l f =>
      f.requests = (l.map Prod.snd).reduceOption ∧ f.Matched) (fun l => ?_)
    (fun l f vec hf => ⟨?_, hf.2.push⟩)
    (fun s a l f _ _ hf => ⟨(Fd.requests_consumed f _).trans hf.1, hf.2.consumed _⟩)
    ⟨rfl, rfl⟩ h
  · exact ⟨fun _ _ _ hf => hf,
      fun f hf => ⟨(Fd.kept_requests _).skipZero f hf.1, Fd.kept_matched.skipZero f hf.2⟩,
      fun f n hn hf => ⟨(Fd.kept_requests _).wrote f n hn hf.1,
        Fd.kept_matched.wrote f n hn hf.2⟩⟩
  · rw [Fd.requests_push, hf.1, List.map_append, List.reduceOption_append]

/-- A message of two vectors with one request, for an fd of worker 1 of two: a part of it is
written at once, and the rest at the next event. -/
def request : List (Act ℕ) :=
  [.writev 3 (withRequest [[1, 2, 3], [4, 5]] 7) (.wrote 2) true, .wait 1 [3],
    .tryWrite 1 (.wrote 3) true]

theorem request_run : ∃ s, Run (step 2) (Smooth 3) init request s ∧
    (s.fds 3).notify = .unwatched ∧ s.backlog 1 = [] := by
  refine ⟨_, .cons ?_ rfl (.cons trivial rfl (.cons ?_ rfl (.nil _))), rfl, rfl⟩
  · exact fun _ => ⟨rfl, rfl⟩
  · exact fun _ => rfl

theorem finalized_append_request : ∃ s, Run (step 2) Free init request s ∧
    (s.fds 3).finalized ++ (s.fds 3).ctx.reqvec.reduceOption = [7] := by
  obtain ⟨s, hs, -⟩ := request_run
  have hfree := hs.mono (Q := Free) fun _ _ _ => trivial
  exact ⟨s, hfree, (finalized_append hfree 3).1⟩

theorem sent_of_run (h : Run (step workers) (Smooth fd) init as s) :
    Fd.Sent (as.flatMap (queuedBy fd)) (s.fds fd) :=
  run_kept fd Fd.kept_sent (fun _ _ _ hf => hf.push) (fun _ _ _ _ hp hno => absurd hp hno)
    ⟨[], [], [], rfl, rfl, rfl, rfl, .nil rfl⟩ h

/-- Where no call for the fd fails, its bytes are written in the order they were queued, and a
finalizer has been called just when the bytes of its vector and of those before it were written. -/
theorem run_sent (h : Run (step workers) (Smooth fd) init as s) :
    (s.fds fd).written ++ (s.fds fd).ctx.bufvec.flatten =
        ((as.flatMap (queuedBy fd)).map Prod.fst).flatten ∧
      ∃ n, (s.fds fd).finalized =
          (((as.flatMap (queuedBy fd)).take n).map Prod.snd).reduceOption ∧
        (s.fds fd).ctx.reqvec = ((as.flatMap (queuedBy fd)).drop n).map Prod.snd ∧
        ∀ i < (as.flatMap (queuedBy fd)).length, i < n ↔
          (((as.flatMap (queuedBy fd)).take (i + 1)).map Prod.fst).flatten.length ≤
            (s.fds fd).written.length :=
  (sent_of_run h).exactly (run_unwritten h fd)

/-- What is left is written at the next event. -/
theorem run_sent_request : ∃ s, Run (step 2) (Smooth 3) init request s ∧
    (s.fds 3).written ++ (s.fds 3).ctx.bufvec.flatten = [1, 2, 3, 4, 5] ∧
    ∃ n, (s.fds 3).finalized =
      (((withRequest [[1, 2, 3], [4, 5]] 7).take n).map Prod.snd).reduceOption := by
  obtain ⟨s, hs, -⟩ := request_run
  obtain ⟨hbytes, n, hfin, -⟩ := run_sent hs
  exact ⟨s, hs, hbytes, n, hfin⟩

/-- Whatever fails, no byte is written twice or before an earlier one. -/
theorem written_sublist (h : Run (step workers) Free init as s) (fd : ℕ) :
    ((s.fds fd).written ++ (s.fds fd).ctx.bufvec.flatten).Sublist
      ((as.flatMap (queuedBy fd)).map Prod.fst).flatten := by
  refine run_kept fd (I := fun l f => f.Among (l.map Prod.fst).flatten)
    (fun l => Fd.kept_among _) (fun l f vec hf => ?_) (fun s a l f _ _ hf => hf.consumed _)
    (List.Sublist.refl []) h
  unfold Fd.Among Fd.push
  rw [List.map_append, List.flatten_append, List.flatten_append, ← List.append_assoc]
  exact List.Sublist.append hf (List.Sublist.refl _)

theorem written_sublist_request : ∃ s, Run (step 2) Free init request s ∧
    ((s.fds 3).written ++ (s.fds 3).ctx.bufvec.flatten).Sublist [1, 2, 3, 4, 5] := by
  obtain ⟨s, hs, -⟩ := request_run
  have hfree := hs.mono (Q := Free) fun _ _ _ => trivial
  exact ⟨s, hfree, written_sublist hfree 3⟩

end Output

/-! ## Events -/

namespace Fd

theorem clear_empty (f : Fd ρ) : f.clear.empty = true := by
  simp [empty, clear, consumed]

/-- Where the queue was empty, what is left is watched. -/
theorem writev_armed (he : f.empty = true) (h : f.writev vec wl ok = some g) :
    g.empty = true ∨ g.notify = .armed := by
  obtain ⟨he', -⟩ | ⟨-, q, r, hq, ⟨rfl, rfl⟩ | ⟨-, rfl⟩⟩ := writev_cases h
  · rw [he] at he'
    cases he'
  · obtain ⟨he, rfl, -⟩ | ⟨-, ⟨-, -, hr⟩ | ⟨-, rfl, -⟩ | ⟨n, -, -, -, -, hr⟩⟩ :=
      tryWriteInitial_cases hq
    · exact .inl he
    · cases hr
    · exact .inl (clear_empty _)
    · exact .inl hr.symm
  · obtain ⟨-, -, hw⟩ | ⟨-, hw⟩ := watch_cases q ok <;> rw [hw]
    · exact .inr rfl
    · exact .inl (clear_empty q)

theorem shotReactivate_armed (hf : f.notify ≠ .unwatched) :
    (f.shotReactivate true).notify = .armed := by
  unfold shotReactivate Notify.shotReactivate
  rw [if_pos ⟨rfl, hf⟩]

theorem shotReactivate_false (f : Fd ρ) : f.shotReactivate false = f := by
  simp [shotReactivate, Notify.shotReactivate]

/-- A `try_write` after which the queue is not forgotten. -/
def Attended (f : Fd ρ) (wl : WriteResult) (ok : Bool) : Prop :=
  f.skipZero.empty = false → wl ≠ .again ∧
    ∀ n, wl = .wrote n → 0 < n → ok = true ∨ (f.skipZero.wrote n).empty = true

theorem tryWrite_armed (hf : f.notify = .shot) (hatt : f.Attended wl ok)
    (h : f.tryWrite wl ok = some g) : g.empty = true ∨ g.notify = .armed := by
  obtain ⟨he, rfl⟩ | ⟨he, ⟨hwl, -⟩ | ⟨-, rfl⟩ | ⟨n, hwl, hn, -, ⟨hw, rfl⟩ | ⟨hw, rfl⟩⟩⟩ :=
    tryWrite_cases h
  · exact .inl he
  · exact absurd hwl (hatt he).1
  · exact .inl (clear_empty _)
  · exact .inl hw
  · obtain rfl | hw' := (hatt he).2 n hwl hn
    · refine .inr (shotReactivate_armed ?_)
      show f.notify ≠ .unwatched
      rw [hf]
      simp
    · rw [hw] at hw'
      cases hw'

/-- Otherwise it is. -/
theorem tryWrite_shot (hf : f.notify = .shot) (hatt : ¬ f.Attended wl ok)
    (h : f.tryWrite wl ok = some g) : g.empty = false ∧ g.notify = .shot := by
  simp only [Attended, not_forall, not_and_or, not_not] at hatt
  obtain ⟨he, hatt⟩ := hatt
  obtain ⟨he', -⟩ | ⟨-, ⟨-, rfl⟩ | ⟨hwl, rfl⟩ | ⟨n, hwl, hn, -, ⟨hw, rfl⟩ | ⟨hw, rfl⟩⟩⟩ :=
    tryWrite_cases h
  · rw [he] at he'
    cases he'
  · exact ⟨he, hf⟩
  · obtain rfl | ⟨n, rfl, hn, -⟩ := hatt
    · cases hwl
    · simp [WriteResult.fails, hn.ne'] at hwl
  · obtain rfl | ⟨m, hm, -, hno⟩ := hatt
    · cases hwl
    · cases hm.symm.trans hwl
      exact absurd (.inr hw) hno
  · obtain rfl | ⟨m, hm, -, hno⟩ := hatt
    · cases hwl
    · cases ok
      · rw [shotReactivate_false]
        exact ⟨hw, hf⟩
      · exact absurd (.inl rfl) hno

end Fd

namespace Output

open Machine (Run Free)

variable {workers fd : ℕ} {s t : Output ρ} {a : Act ρ} {as : List (Act ρ)}

/-- Whoever has vectors is watched, or its worker is about to write for it. -/
def Watched (workers : ℕ) (s : Output ρ) : Prop :=
  ∀ fd, (s.fds fd).empty = false →
    (s.fds fd).notify = .armed ∨ (s.fds fd).notify = .shot ∧ fd ∈ s.backlog (fd % workers)

structure Tracked (workers : ℕ) (s : Output ρ) : Prop where
  idle : Idle s
  watched : Watched workers s
  nodup : ∀ worker, (s.backlog worker).Nodup
  reported : ∀ worker, ∀ fd ∈ s.backlog worker, fd % workers = worker ∧ (s.fds fd).notify = .shot

/-- No fd is closed with a queue that is not empty, and after an event either nothing is left or the
edge is asked again. -/
def Attended (s : Output ρ) : Act ρ → Prop
  | .writev _ _ _ _ | .wait _ _ => True
  | .tryWrite worker wl ok => ∀ fd ∈ (s.backlog worker).head?, (s.fds fd).Attended wl ok
  | .close fd => (s.fds fd).empty = true

theorem tracked_init : Tracked workers (init (ρ := ρ)) where
  idle := idle_init
  watched _ he := nomatch he
  nodup _ := List.nodup_nil
  reported _ _ hm := nomatch hm

theorem Tracked.setFd (hs : Tracked workers s) (hidle : f.Idle)
    (hshot : (s.fds fd).notify = .shot → f.notify = .shot)
    (hw : f.empty = false →
      f.notify = .armed ∨ f.notify = .shot ∧ fd ∈ s.backlog (fd % workers)) :
    Tracked workers (s.setFd fd f) where
  idle fd' := by
    simp only [Output.setFd, Function.update_apply]
    split_ifs with h
    · exact hidle
    · exact hs.idle fd'
  watched fd' := by
    simp only [Output.setFd, Function.update_apply]
    split_ifs with h
    · subst h
      exact hw
    · exact hs.watched fd'
  nodup := hs.nodup
  reported worker fd' hm := by
    obtain ⟨hmod, hn⟩ := hs.reported worker fd' hm
    refine ⟨hmod, ?_⟩
    simp only [Output.setFd, Function.update_apply]
    split_ifs with h
    · subst h
      exact hshot hn
    · exact hn

theorem Tracked.writev (hs : Tracked workers s) (h : (s.fds fd).writev vec wl ok = some f) :
    Tracked workers (s.setFd fd f) := by
  refine hs.setFd ((hs.idle fd).writev h) (fun hn => ?_) fun he => ?_
  · obtain ⟨-, rfl⟩ | ⟨he, -⟩ := Fd.writev_cases h
    · exact hn
    · rw [hs.idle fd he] at hn
      cases hn
  · by_cases hemp : (s.fds fd).empty = true
    · obtain he' | ha := Fd.writev_armed hemp h
      · rw [he] at he'
        cases he'
      · exact .inl ha
    · have hemp := Bool.eq_false_of_not_eq_true hemp
      obtain ⟨-, rfl⟩ | ⟨he', -⟩ := Fd.writev_cases h
      · exact hs.watched fd hemp
      · rw [hemp] at he'
        cases he'

theorem Tracked.report {worker : ℕ} {ready : List ℕ} (hs : Tracked workers s)
    (hb : s.backlog worker = []) (hr : Ready workers s worker ready) :
    Tracked workers (s.report worker ready) where
  idle fd := by
    simp only [Output.report]
    split_ifs with h
    · intro he
      have := hs.idle fd he
      rw [(hr.2.2 fd h).2] at this
      cases this
    · exact hs.idle fd
  watched fd := by
    simp only [Output.report]
    split_ifs with h
    · intro _
      refine .inr ⟨rfl, ?_⟩
      rw [(hr.2.2 fd h).1, Function.update_self]
      exact h
    · intro he
      obtain ha | ⟨hn, hm⟩ := hs.watched fd he
      · exact .inl ha
      · refine .inr ⟨hn, ?_⟩
        rw [Function.update_apply]
        split_ifs with hw
        · rw [hw, hb] at hm
          cases hm
        · exact hm
  nodup w := by
    simp only [Output.report, Function.update_apply]
    split_ifs
    · exact hr.1
    · exact hs.nodup w
  reported w fd hm := by
    simp only [Output.report, Function.update_apply] at hm ⊢
    split_ifs at hm with hw
    · rw [if_pos hm, hw]
      exact ⟨(hr.2.2 fd hm).1, rfl⟩
    · obtain ⟨hmod, hn⟩ := hs.reported w fd hm
      split_ifs
      · exact ⟨hmod, rfl⟩
      · exact ⟨hmod, hn⟩

/-- A worker has written for the first fd of its backlog. -/
theorem Tracked.tryWrite {worker : ℕ} {rest : List ℕ} (hs : Tracked workers s)
    (hb : s.backlog worker = fd :: rest) (hidle : f.Idle)
    (hw : f.empty = true ∨ f.notify = .armed) :
    Tracked workers
      { s.setFd fd f with backlog := Function.update s.backlog worker rest } := by
  have hnodup := hs.nodup worker
  rw [hb, List.nodup_cons] at hnodup
  have hmem : ∀ w, ∀ fd' ∈ Function.update s.backlog worker rest w,
      fd' ∈ s.backlog w ∧ fd' ≠ fd := by
    intro w fd' hm
    rw [Function.update_apply] at hm
    split_ifs at hm with hw
    · subst hw
      exact ⟨hb ▸ List.mem_cons_of_mem _ hm, fun h => hnodup.1 (h ▸ hm)⟩
    · refine ⟨hm, ?_⟩
      rintro rfl
      have h := (hs.reported w _ hm).1
      exact hw (h.symm.trans (hs.reported worker _ (hb ▸ List.mem_cons_self)).1)
  constructor
  · intro fd'
    simp only [Output.setFd, Function.update_apply]
    split_ifs with h
    · exact hidle
    · exact hs.idle fd'
  · intro fd'
    simp only [Output.setFd, Function.update_apply]
    split_ifs with h h'
    · intro he
      rw [he] at hw
      exact .inl (hw.resolve_left (by simp))
    · intro he
      rw [he] at hw
      exact .inl (hw.resolve_left (by simp))
    · rename_i hwk
      intro he
      refine (hs.watched fd' he).imp_right fun ⟨hn, hm⟩ => ⟨hn, ?_⟩
      rw [hwk, hb, List.mem_cons] at hm
      exact hm.resolve_left h
    · exact hs.watched fd'
  · intro w
    simp only [Function.update_apply]
    split_ifs
    · exact hnodup.2
    · exact hs.nodup w
  · intro w fd' hm
    obtain ⟨hm', hne⟩ := hmem w fd' hm
    simp only [Output.setFd, Function.update_of_ne hne]
    exact hs.reported w fd' hm'

theorem Tracked.step (hs : Tracked workers s) (hatt : Attended s a)
    (h : Output.step workers s a = some t) : Tracked workers t := by
  cases a with
  | writev fd vec wl ok =>
    obtain ⟨f, hf, rfl⟩ := Option.map_eq_some_iff.1 h
    exact hs.writev hf
  | wait worker ready =>
    simp only [Output.step] at h
    split_ifs at h with hw
    cases h
    exact hs.report hw.1 hw.2
  | tryWrite worker wl ok =>
    simp only [Output.step] at h
    split at h
    · cases h
    · rename_i fd rest hb
      obtain ⟨f, hf, rfl⟩ := Option.map_eq_some_iff.1 h
      have hshot := (hs.reported worker fd (hb ▸ List.mem_cons_self)).2
      exact hs.tryWrite hb (Fd.Idle.tryWrite hf)
        (Fd.tryWrite_armed hshot (hatt fd (by rw [hb]; rfl)) hf)
  | close fd =>
    cases h
    have he : (s.fds fd).empty = true := hatt
    refine hs.setFd (fun _ => rfl) (fun hn => ?_) fun he' => ?_
    · rw [hs.idle fd he] at hn
      cases hn
    · exact absurd (he.symm.trans he') (by simp)

/-- A step that the guard forbids leaves a queue that nobody watches. -/
theorem Tracked.attended (hs : Tracked workers s) (h : Output.step workers s a = some t)
    (ht : Watched workers t) : Attended s a := by
  cases a with
  | writev fd vec wl ok => trivial
  | wait worker ready => trivial
  | tryWrite worker wl ok =>
    simp only [Output.step] at h
    split at h
    · cases h
    · rename_i fd rest hb
      obtain ⟨f, hf, rfl⟩ := Option.map_eq_some_iff.1 h
      intro fd' hfd'
      obtain rfl : fd = fd' := by simpa [hb] using hfd'
      by_contra hno
      obtain ⟨hmod, hshot⟩ := hs.reported worker fd (hb ▸ List.mem_cons_self)
      obtain ⟨he, hn⟩ := Fd.tryWrite_shot hshot hno hf
      have hnodup := hs.nodup worker
      rw [hb, List.nodup_cons] at hnodup
      obtain ha | ⟨-, hm⟩ := ht fd (by simpa using he)
      · simp [hn] at ha
      · rw [hmod] at hm
        exact hnodup.1 (by simpa using hm)
  | close fd =>
    cases h
    by_contra hno
    have he := Bool.eq_false_of_not_eq_true hno
    have hw := ht fd
    rw [setFd_self] at hw
    simpa [Fd.close] using hw he

/-- Every queue stays watched in just those runs whose steps attend to it. -/
theorem watched_iff (h : Run (step workers) Free init as s) :
    (∀ pre post u, as = pre ++ post → Run (step workers) Free init pre u → Watched workers u) ↔
      Run (step workers) Attended init as s :=
  h.holds_iff (fun _ hs => hs.watched) (fun _ _ _ hs ha hst => hs.step ha hst)
    (fun _ _ _ hs hst ht => hs.attended hst ht) tracked_init

theorem request_attended : ∃ s,
    Run (step 2) (fun s a => Attended s a ∧ Smooth 3 s a) init request s ∧
      (s.fds 3).notify = .unwatched ∧ s.backlog 1 = [] := by
  refine ⟨_, .cons ?_ rfl (.cons ?_ rfl (.cons ?_ rfl (.nil _))), rfl, rfl⟩
  · exact ⟨trivial, fun _ => ⟨rfl, rfl⟩⟩
  · exact ⟨trivial, trivial⟩
  · refine ⟨fun fd _ _ => ⟨nofun, fun _ _ _ => .inl rfl⟩, fun _ => rfl⟩

theorem watched_iff_request : ∃ s, Run (step 2) Free init request s ∧
    ((∀ pre post u, request = pre ++ post → Run (step 2) Free init pre u → Watched 2 u) ↔
      Run (step 2) Attended init request s) := by
  obtain ⟨s, hs, -⟩ := request_attended
  have hfree := hs.mono (Q := Free) fun _ _ _ => trivial
  exact ⟨s, hfree, watched_iff hfree⟩

/-- Where every queue is attended to and no call for the fd fails, all its bytes are written and all
its finalizers called when no event is due. -/
theorem all_written (h : Run (step workers) (fun s a => Attended s a ∧ Smooth fd s a) init as s)
    (hn : (s.fds fd).notify ≠ .armed) (hb : fd ∉ s.backlog (fd % workers)) :
    (s.fds fd).written = ((as.flatMap (queuedBy fd)).map Prod.fst).flatten ∧
      (s.fds fd).finalized = ((as.flatMap (queuedBy fd)).map Prod.snd).reduceOption := by
  have htracked : Tracked workers s :=
    h.inv (fun _ _ _ hs ha hst => hs.step ha.1 hst) tracked_init
  obtain ⟨gone, left, p, hq, hfin, -, hw, hbehind⟩ := sent_of_run (h.mono fun _ _ ha => ha.2)
  have hempty : (s.fds fd).ctx.bufvec = [] := by
    by_contra hne
    obtain ha | ⟨-, hm⟩ := htracked.watched fd (by simpa [Fd.empty] using hne)
    · exact hn ha
    · exact hb hm
  rw [hempty] at hbehind
  generalize hl : left.map Prod.fst = vecs at hbehind
  cases hbehind with
  | nil hp =>
    obtain rfl := List.map_eq_nil_iff.1 hl
    rw [List.append_nil] at hq
    rw [hq, hw, hp, List.append_nil]
    exact ⟨rfl, hfin⟩

theorem all_written_request : ∃ s,
    Run (step 2) (fun s a => Attended s a ∧ Smooth 3 s a) init request s ∧
      (s.fds 3).written = [1, 2, 3, 4, 5] ∧ (s.fds 3).finalized = [7] := by
  obtain ⟨s, hs, hn, hb⟩ := request_attended
  exact ⟨s, hs, all_written hs (by rw [hn]; exact nofun) (by rw [hb]; exact nofun)⟩

/-! ## An end to writing -/

/-- The bytes still to write, and an event. -/
def potential (f : Fd ρ) : ℕ :=
  f.ctx.bufvec.flatten.length + if f.notify = .unwatched then 0 else 1

theorem potential_of_empty {f : Fd ρ} (he : f.empty = true) (hn : f.notify = .unwatched) :
    potential f = 0 := by
  have hb : f.ctx.bufvec = [] := by simpa [Fd.empty] using he
  simp [potential, hb, hn]

theorem potential_le (f : Fd ρ) : potential f ≤ f.ctx.bufvec.flatten.length + 1 := by
  unfold potential
  split_ifs <;> omega

theorem length_consumed (f : Fd ρ) (k : ℕ) :
    (f.consumed k).ctx.bufvec.flatten.length ≤ f.ctx.bufvec.flatten.length := by
  have h := congrArg (List.length ∘ List.flatten) (List.take_append_drop k f.ctx.bufvec)
  simp only [Function.comp_apply, List.flatten_append, List.length_append] at h
  simp only [Fd.consumed]
  omega

theorem length_wrote {f : Fd ρ} {n : ℕ} (hn : n ≤ f.offered.length) :
    (f.wrote n).ctx.bufvec.flatten.length + n = f.ctx.bufvec.flatten.length := by
  obtain ⟨q, hq, hb⟩ := Fd.advance_spec n f.ctx.bufvec (Fd.le_flatten hn)
  have h := congrArg (List.length ∘ List.flatten)
    (List.take_append_drop (advance n f.ctx.bufvec).1 f.ctx.bufvec)
  simp only [Function.comp_apply, List.flatten_append, List.length_append, hb.flatten] at h
  have hq := congrArg List.length hq
  rw [List.length_take, List.length_append, Nat.min_eq_left (Fd.le_flatten hn)] at hq
  simp only [Fd.wrote, Fd.consumed]
  omega

theorem potential_tryWrite (hf : f.notify = .shot) (hatt : f.Attended wl ok)
    (h : f.tryWrite wl ok = some g) : potential g + 1 ≤ potential f := by
  have hpos : potential f = f.ctx.bufvec.flatten.length + 1 := by simp [potential, hf]
  have hidle := Fd.Idle.tryWrite h
  by_cases he : g.empty = true
  · rw [potential_of_empty he (hidle he)]
    omega
  · obtain ⟨hz, rfl⟩ | ⟨hne, ⟨hwl, -⟩ | ⟨-, rfl⟩ | ⟨n, -, hn, hle, ⟨hw, rfl⟩ | ⟨-, rfl⟩⟩⟩ :=
      Fd.tryWrite_cases h
    · exact absurd hz he
    · exact absurd hwl (hatt hne).1
    · exact absurd (Fd.clear_empty _) he
    · exact absurd hw he
    · have hpot := potential_le ((f.skipZero.wrote n).shotReactivate ok)
      have hwrote := length_wrote hle
      have hskip := length_consumed f (f.ctx.bufvec.takeWhile (·.isEmpty)).length
      change _ ≤ (f.skipZero.wrote n).ctx.bufvec.flatten.length + 1 at hpot
      change f.skipZero.ctx.bufvec.flatten.length ≤ _ at hskip
      omega

theorem kept_length (n : ℕ) : Fd.Kept (ρ := ρ) (·.ctx.bufvec.flatten.length ≤ n) where
  edge _ _ _ hf := hf
  skipZero f hf := (length_consumed f _).trans hf
  wrote f m hm hf := by
    have := length_wrote hm
    omega

theorem potential_writev (hidle : f.Idle) (h : f.writev vec wl ok = some g) :
    potential g ≤ potential f + ((vec.map Prod.fst).flatten.length + 1) := by
  have hpush : (f.push vec).ctx.bufvec.flatten.length =
      f.ctx.bufvec.flatten.length + (vec.map Prod.fst).flatten.length := by
    simp [Fd.push, List.flatten_append]
  have hlen := (kept_length _).writev hidle (fun _ q hq => (length_consumed q _).trans hq) h
    (Nat.le_refl _)
  by_cases he : f.empty = true
  · have := potential_le g
    have : f.ctx.bufvec.flatten.length ≤ potential f := Nat.le_add_right _ _
    omega
  · obtain ⟨-, rfl⟩ | ⟨he', -⟩ := Fd.writev_cases h
    · unfold potential
      rw [hpush, show (f.push vec).notify = f.notify from rfl]
      omega
    · exact absurd he' he

/-- The bytes that are queued for the fd, and one for each call. -/
def cost (fd : ℕ) : Act ρ → ℕ
  | .writev fd' vec _ _ => if fd' = fd then (vec.map Prod.fst).flatten.length + 1 else 0
  | .wait _ _ | .tryWrite _ _ _ | .close _ => 0

theorem potential_step (hs : Tracked workers s) (hatt : Attended s a)
    (h : step workers s a = some t) :
    potential (t.fds fd) + (handles fd s a).toNat ≤ potential (s.fds fd) + cost fd a := by
  have htouch := step_touches h fd
  generalize t.fds fd = f at htouch
  cases htouch with
  | other ha hh =>
    rw [hh]
    exact Nat.le_add_right _ _
  | @writev vec wl ok f hw =>
    have := potential_writev (hs.idle fd) hw
    simpa [handles, cost] using this
  | report _ ha =>
    simp [handles, cost, potential, ha]
  | @tryWrite worker rest wl ok f hb hw =>
    have hshot := (hs.reported worker fd (hb ▸ List.mem_cons_self)).2
    have := potential_tryWrite hshot (hatt fd (by rw [hb]; rfl)) hw
    simpa [handles, cost, hb] using this
  | close =>
    rw [potential_of_empty (show (s.fds fd).close.empty = true from hatt) rfl]
    exact Nat.zero_le _

/-- There is an end to writing: the workers write for an fd no more often than it has bytes and
calls of `writev`. -/
theorem tally_handles_le (h : Run (step workers) Attended init as s) (fd : ℕ) :
    Machine.tally (step workers) (handles fd) init as ≤ (as.map (cost fd)).sum := by
  have hle := Run.tally_le (I := Tracked workers) (p := handles fd)
    (fun u => potential (u.fds fd)) (cost fd)
    (fun _ _ _ hs ha hst => ⟨hs.step ha hst, potential_step hs ha hst⟩) h tracked_init
  exact (Nat.le_add_left _ _).trans (hle.trans_eq (Nat.zero_add _))

theorem tally_handles_le_request : ∃ s, Run (step 2) Attended init request s ∧
    Machine.tally (step 2) (handles 3) init request ≤ 6 := by
  obtain ⟨s, hs, -⟩ := request_attended
  have hatt := hs.mono fun _ _ ha => ha.1
  exact ⟨s, hatt, tally_handles_le hatt 3⟩

/-! ## A queue that nobody watches -/

/-- Nobody is going to write for the fd. -/
structure Forgotten (fd : ℕ) (s : Output ρ) : Prop where
  queue : (s.fds fd).empty = false
  notify : (s.fds fd).notify ≠ .armed
  backlog : ∀ worker, fd ∉ s.backlog worker

theorem Forgotten.step (hs : Forgotten fd s) (h : Output.step workers s a = some t) :
    Forgotten fd t ∧ (t.fds fd).written = (s.fds fd).written ∧
      (t.fds fd).finalized = (s.fds fd).finalized ∧
      (t.fds fd).ctx.bufvec = (s.fds fd).ctx.bufvec ++ (queuedBy fd a).map Prod.fst := by
  have hb : ∀ worker, fd ∉ t.backlog worker := by
    intro worker
    cases a with
    | writev fd' vec wl ok =>
      obtain ⟨f, -, rfl⟩ := Option.map_eq_some_iff.1 h
      exact hs.backlog worker
    | wait w ready =>
      simp only [Output.step] at h
      split_ifs at h with hw
      cases h
      simp only [Output.report, Function.update_apply]
      split_ifs
      · exact fun hm => hs.notify (hw.2.2.2 fd hm).2
      · exact hs.backlog worker
    | tryWrite w wl ok =>
      simp only [Output.step] at h
      split at h
      · cases h
      · rename_i fd' rest hw
        obtain ⟨f, -, rfl⟩ := Option.map_eq_some_iff.1 h
        simp only [Function.update_apply]
        split_ifs
        · exact fun hm => hs.backlog w (hw ▸ List.mem_cons_of_mem _ hm)
        · exact hs.backlog worker
    | close fd' =>
      cases h
      exact hs.backlog worker
  have htouch := step_touches h fd
  generalize hf : t.fds fd = f at htouch
  cases htouch with
  | other ha _ =>
    exact ⟨⟨hf ▸ hs.queue, hf ▸ hs.notify, hb⟩, rfl, rfl,
      by rw [ha, List.map_nil, List.append_nil]⟩
  | @writev vec wl ok f hw =>
    obtain ⟨-, rfl⟩ | ⟨he, -⟩ := Fd.writev_cases hw
    · refine ⟨⟨hf ▸ Fd.push_empty hs.queue, hf ▸ hs.notify, hb⟩, rfl, rfl, ?_⟩
      rw [show queuedBy fd (.writev fd vec wl ok) = vec by simp [queuedBy]]
      rfl
    · rw [hs.queue] at he
      cases he
  | report _ ha => exact absurd ha hs.notify
  | tryWrite hw _ => exact absurd (hw ▸ List.mem_cons_self) (hs.backlog _)
  | close =>
    have hnot : (s.fds fd).close.notify ≠ .armed := show Notify.unwatched ≠ .armed by decide
    refine ⟨⟨hf ▸ hs.queue, hf ▸ hnot, hb⟩, rfl, rfl, ?_⟩
    exact (List.append_nil _).symm

/-- A queue that is forgotten is so for ever, through every connection that gets the fd: nothing is
written, no finalizer is called, and what is queued piles up. -/
theorem Forgotten.forever (hs : Forgotten fd s) (h : Run (Output.step workers) Free s as t) :
    Forgotten fd t ∧ (t.fds fd).written = (s.fds fd).written ∧
      (t.fds fd).finalized = (s.fds fd).finalized ∧
      (t.fds fd).ctx.bufvec =
        (s.fds fd).ctx.bufvec ++ (as.flatMap (queuedBy fd)).map Prod.fst := by
  have hrun := h.inv_flatMap (queuedBy fd) (l := []) (I := fun u l => Forgotten fd u ∧
    (u.fds fd).written = (s.fds fd).written ∧ (u.fds fd).finalized = (s.fds fd).finalized ∧
      (u.fds fd).ctx.bufvec = (s.fds fd).ctx.bufvec ++ l.map Prod.fst)
  refine hrun ?_ ⟨hs, rfl, rfl, (List.append_nil _).symm⟩
  rintro u l a v ⟨hu, hw, hfin, hbuf⟩ - hst
  obtain ⟨hv, hw', hfin', hbuf'⟩ := hu.step hst
  refine ⟨hv, hw'.trans hw, hfin'.trans hfin, ?_⟩
  rw [hbuf', hbuf, List.map_append, List.append_assoc]

/-- A connection is closed with a part of a message in its queue, and the next one of that number
gets another message. -/
def reused : List (Act ℕ) :=
  [.writev 3 (withRequest [[1, 2]] 7) (.wrote 1) true, .close 3]

theorem reused_run : ∃ s t : Output ℕ, Run (step 2) Free init reused s ∧
    Run (step 2) Free s [.writev 3 (withRequest [[5]] 8) (.wrote 1) true] t ∧ Forgotten 3 s ∧
      (s.fds 3).written = [1] := by
  refine ⟨_, _, Machine.exec_run rfl, .cons trivial rfl (.nil _), ⟨rfl, nofun, ?_⟩, rfl⟩
  exact fun _ => List.not_mem_nil

theorem forever_reused : ∃ s t : Output ℕ, Run (step 2) Free init reused s ∧
    Run (step 2) Free s [.writev 3 (withRequest [[5]] 8) (.wrote 1) true] t ∧
      (s.fds 3).written = [1] ∧ (t.fds 3).written = (s.fds 3).written := by
  obtain ⟨s, t, hs, ht, hforgotten, hw⟩ := reused_run
  exact ⟨s, t, hs, ht, hw, (hforgotten.forever ht).2.1⟩

end Output

end Kumofs.Wavy
