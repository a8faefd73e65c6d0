import Kumofs.Lib.Run
import Mathlib.Logic.Relation

/-!
# Operations that take locks

An operation is the sequence of the locks it takes and gives back. Any number of operations run at
once; a lock is taken in a mode, and it can be taken if nobody holds it in a conflicting one. They
are in deadlock if each of some of them waits for a lock that the next one holds, all the way round.

If every operation takes its locks in the order of a rank there is no deadlock, since the rank of the
lock waited for rises from one to the next. `Cyclic.exists_not_lt` says where it does not rise in
general. Two operations cross if each holds a lock that the other has still to take.
-/

/-- Somewhere on the way round a cycle a number does not rise. -/
theorem Cyclic.exists_not_lt {α : Type*} {R : α → α → Prop} (f : α → ℕ) {a : α}
    (h : Relation.TransGen R a a) : ∃ i j, R i j ∧ f j ≤ f i ∧ Relation.TransGen R j j := by
  by_contra hn
  push Not at hn
  have hlt : ∀ {b}, Relation.TransGen R a b → Relation.TransGen R b a → f a < f b := by
    intro b hab
    induction hab with
    | single hR =>
      intro hba
      by_contra hle
      exact hn _ _ hR (Nat.le_of_not_lt hle) (hba.tail hR)
    | @tail b c hab hR ih =>
      intro hca
      have hcc : Relation.TransGen R c c := (hca.trans hab).tail hR
      have hbc : f b < f c := by
        by_contra hle
        exact hn _ _ hR (Nat.le_of_not_lt hle) hcc
      exact Nat.lt_trans (ih (.head hR hca)) hbc
  exact Nat.lt_irrefl _ (hlt h h)

namespace Locking

/-- A mutex is only taken to write. -/
inductive Mode
  | read | write
  deriving DecidableEq, Repr

def Mode.conflicts : Mode → Mode → Bool
  | .read, .read => false
  | _, _ => true

inductive Event (L : Type*)
  | acquire (l : L) (m : Mode)
  | release (l : L)
  deriving DecidableEq, Repr

structure Thread (L : Type*) where
  held : List (L × Mode)
  todo : List (Event L)
  deriving DecidableEq, Repr

inductive Act (ω : Type*)
  /-- An operation begins. -/
  | start (op : ω)
  /-- Operation `i` takes or gives back its next lock. -/
  | go (i : ℕ)

variable {L ω : Type*} [DecidableEq L]

/-- Nobody holds the lock in a conflicting mode. -/
def free (s : List (Thread L)) (l : L) (m : Mode) : Bool :=
  s.all fun t => t.held.all fun h => h.1 ≠ l || !m.conflicts h.2

def next (s : List (Thread L)) (t : Thread L) : Option (Thread L) :=
  match t.todo with
  | [] => none
  | .acquire l m :: es => if free s l m then some ⟨(l, m) :: t.held, es⟩ else none
  | .release l :: es => some ⟨t.held.filter (·.1 ≠ l), es⟩

def step (trace : ω → List (Event L)) (s : List (Thread L)) : Act ω → Option (List (Thread L))
  | .start op => some (s ++ [⟨[], trace op⟩])
  | .go i => s[i]?.bind fun t => (next s t).map (s.set i)

/-- The lock that an operation is about to take. -/
def Thread.wants (t : Thread L) : Option (L × Mode) :=
  match t.todo with
  | .acquire l m :: _ => some (l, m)
  | _ => none

/-- Operation `i` waits for a lock that `j` holds. -/
def WaitsFor (s : List (Thread L)) (i j : ℕ) : Prop :=
  ∃ t ∈ s[i]?, ∃ u ∈ s[j]?, ∃ l m m', t.wants = some (l, m) ∧ (l, m') ∈ u.held ∧
    m.conflicts m' = true

def Deadlock (s : List (Thread L)) : Prop := ∃ i, Relation.TransGen (WaitsFor s) i i

/-! ## What is taken while what is held -/

/-- Each lock is taken while those before it are held as `edge` allows. -/
def Allowed (edge : List (L × Mode) → L → Mode → Prop) : List (L × Mode) → List (Event L) → Prop
  | _, [] => True
  | held, .acquire l m :: es => edge held l m ∧ Allowed edge ((l, m) :: held) es
  | held, .release l :: es => Allowed edge (held.filter (·.1 ≠ l)) es

section Allowed

variable {edge : List (L × Mode) → L → Mode → Prop} {trace : ω → List (Event L)}
  {s s' : List (Thread L)} {a : Act ω}

/-- What a step can do. -/
theorem step_cases (hs : step trace s a = some s') :
    (∃ op, a = .start op ∧ s' = s ++ [⟨[], trace op⟩]) ∨
    (∃ i t l m es, a = .go i ∧ s[i]? = some t ∧ t.todo = .acquire l m :: es ∧ free s l m = true ∧
      s' = s.set i ⟨(l, m) :: t.held, es⟩) ∨
    (∃ i t l es, a = .go i ∧ s[i]? = some t ∧ t.todo = .release l :: es ∧
      s' = s.set i ⟨t.held.filter (·.1 ≠ l), es⟩) := by
  cases a with
  | start op =>
    cases hs
    exact .inl ⟨op, rfl, rfl⟩
  | go i =>
    obtain ⟨t, ht, hs⟩ := Option.bind_eq_some_iff.1 hs
    obtain ⟨t', hn, rfl⟩ := Option.map_eq_some_iff.1 hs
    unfold next at hn
    split at hn
    next => cases hn
    next l m es htodo =>
      split_ifs at hn with hf
      cases hn
      exact .inr (.inl ⟨i, t, l, m, es, rfl, ht, htodo, hf, rfl⟩)
    next l es htodo =>
      cases hn
      exact .inr (.inr ⟨i, t, l, es, rfl, ht, htodo, rfl⟩)

theorem allowed_step (htr : ∀ op, Allowed edge [] (trace op))
    (h : ∀ t ∈ s, Allowed edge t.held t.todo) (hs : step trace s a = some s') :
    ∀ t ∈ s', Allowed edge t.held t.todo := by
  rcases step_cases hs with ⟨op, -, rfl⟩ | ⟨i, t, l, m, es, -, ht, htodo, -, rfl⟩ |
    ⟨i, t, l, es, -, ht, htodo, rfl⟩
  · intro u hu
    rcases List.mem_append.1 hu with hu | hu
    · exact h u hu
    · rw [List.mem_singleton.1 hu]
      exact htr op
  · intro u hu
    have hok := h t (List.mem_of_getElem? ht)
    rw [htodo] at hok
    rcases List.mem_or_eq_of_mem_set hu with hu | rfl
    · exact h u hu
    · exact hok.2
  · intro u hu
    have hok := h t (List.mem_of_getElem? ht)
    rw [htodo] at hok
    rcases List.mem_or_eq_of_mem_set hu with hu | rfl
    · exact h u hu
    · exact hok

/-- A lock that an operation waits for is one that it may take. -/
theorem Allowed.of_wants {t : Thread L} (h : Allowed edge t.held t.todo) {l : L} {m : Mode}
    (hw : t.wants = some (l, m)) : edge t.held l m := by
  unfold Thread.wants at hw
  split at hw
  next htodo =>
    cases hw
    rw [htodo] at h
    exact h.1
  next => cases hw

end Allowed

/-! ## Crossing -/

/-- The lock `h` is taken, in a mode that conflicts, before `l` is given back. -/
def nests (es : List (Event L)) (l : L) (h : L × Mode) : Bool :=
  (es.takeWhile (· ≠ .release l)).any fun
    | .acquire l' m => l' = h.1 && m.conflicts h.2
    | .release _ => false

/-- Each holds a lock that the other is to take before it gives its own back. -/
def Crossed (t u : Thread L) : Prop :=
  ∃ h ∈ t.held, ∃ h' ∈ u.held, nests t.todo h.1 h' = true ∧ nests u.todo h'.1 h = true

/-- With its next lock `t` comes to cross `u`. -/
def Crosses (t u : Thread L) : Prop :=
  ∃ h ∈ t.wants, ∃ h' ∈ u.held, nests t.todo.tail h.1 h' = true ∧ nests u.todo h'.1 h = true

instance (t u : Thread L) : Decidable (Crosses t u) :=
  inferInstanceAs (Decidable (∃ h ∈ t.wants, _))

/-- No operation takes a lock with which it comes to cross another one. -/
def NoCrossing (s : List (Thread L)) : Act ω → Prop
  | .start _ => True
  | .go i => ∀ t ∈ s[i]?, ∀ u ∈ s.eraseIdx i, ¬ Crosses t u

instance (s : List (Thread L)) : ∀ a : Act ω, Decidable (NoCrossing s a)
  | .start _ => inferInstanceAs (Decidable True)
  | .go i => inferInstanceAs (Decidable (∀ t ∈ s[i]?, _))

def Uncrossed (s : List (Thread L)) : Prop :=
  ∀ (i j : ℕ) (t u : Thread L), i ≠ j → s[i]? = some t → s[j]? = some u → ¬ Crossed t u

section Crossing

variable {trace : ω → List (Event L)} {s s' : List (Thread L)} {a : Act ω} {t u : Thread L}

theorem Crossed.symm (h : Crossed t u) : Crossed u t := by
  obtain ⟨x, hx, y, hy, hty, hux⟩ := h
  exact ⟨y, hy, x, hx, hux, hty⟩

theorem nests_acquire {l l' : L} {m : Mode} {es : List (Event L)} {h : L × Mode} :
    nests (.acquire l' m :: es) l h = (l' = h.1 && m.conflicts h.2 || nests es l h) := by
  simp [nests]

theorem nests_release {l l' : L} {es : List (Event L)} {h : L × Mode} :
    nests (.release l' :: es) l h = (l' ≠ l && nests es l h) := by
  by_cases hl : l' = l
  · simp [nests, hl]
  · simp [nests, hl]

theorem nests_of_wants {l l' : L} {m m' : Mode} (hw : t.wants = some (l', m))
    (hm : m.conflicts m' = true) : nests t.todo l (l', m') = true := by
  unfold Thread.wants at hw
  split at hw
  next htodo =>
    cases hw
    rw [htodo, nests_acquire]
    simp [hm]
  next => cases hw

/-- Two operations each of which waits for what the other holds are crossed. -/
theorem crossed_of_waits {l l' : L} {m m' n n' : Mode} (ht : t.wants = some (l, m))
    (hu : (l, m') ∈ u.held) (hm : m.conflicts m' = true) (hu' : u.wants = some (l', n))
    (ht' : (l', n') ∈ t.held) (hn : n.conflicts n' = true) : Crossed t u :=
  ⟨_, ht', _, hu, nests_of_wants ht hm, nests_of_wants hu' hn⟩

/-- An operation that goes on crosses another one only if it did before or comes to. -/
theorem crossed_of_acquire {l : L} {m : Mode} {es : List (Event L)}
    (htodo : t.todo = .acquire l m :: es) (h : Crossed ⟨(l, m) :: t.held, es⟩ u) :
    Crossed t u ∨ Crosses t u := by
  obtain ⟨x, hx, y, hy, hty, hux⟩ := h
  rcases List.mem_cons.1 hx with rfl | hx
  · exact .inr ⟨(l, m), by simp [Thread.wants, htodo], y, hy, by rwa [htodo], hux⟩
  · refine .inl ⟨x, hx, y, hy, ?_, hux⟩
    rw [htodo, nests_acquire, show nests es x.1 y = true from hty, Bool.or_true]

theorem Crosses.crossed {t' : Thread L} (h : Crosses t u) (hn : next s t = some t') :
    Crossed t' u := by
  obtain ⟨x, hx, y, hy, hty, hux⟩ := h
  unfold Thread.wants at hx
  unfold next at hn
  split at hx
  next htodo =>
    cases hx
    rw [htodo] at hn hty
    simp only at hn
    split_ifs at hn
    cases hn
    exact ⟨_, List.mem_cons_self, y, hy, hty, hux⟩
  next => cases hx

theorem crossed_of_release {l : L} {es : List (Event L)} (htodo : t.todo = .release l :: es)
    (h : Crossed ⟨t.held.filter (·.1 ≠ l), es⟩ u) : Crossed t u := by
  obtain ⟨x, hx, y, hy, hty, hux⟩ := h
  obtain ⟨hx, hne⟩ := List.mem_filter.1 hx
  refine ⟨x, hx, y, hy, ?_, hux⟩
  have hne : l ≠ x.1 := Ne.symm (of_decide_eq_true hne)
  rw [htodo, nests_release, show nests es x.1 y = true from hty]
  simpa using hne

/-- An operation that goes on leaves all uncrossed if it comes to cross none of the others. -/
theorem Uncrossed.set {i : ℕ} {t' : Thread L} (h : Uncrossed s) (ht : s[i]? = some t)
    (hnew : ∀ u ∈ s.eraseIdx i, ¬ Crossed t u → ¬ Crossed t' u) : Uncrossed (s.set i t') := by
  have hother : ∀ {j u}, i ≠ j → s[j]? = some u → ¬ Crossed t' u := by
    intro j u hij hu
    refine hnew u (List.mem_eraseIdx_iff_getElem?.2 ⟨j, Ne.symm hij, hu⟩) ?_
    exact h i j t u hij ht hu
  intro j k x y hjk hx hy
  by_cases hij : i = j
  · subst hij
    rw [List.getElem?_set_ne hjk] at hy
    obtain rfl : t' = x := by
      rw [List.getElem?_set_self', ht] at hx
      exact Option.some.inj hx
    exact hother hjk hy
  · rw [List.getElem?_set_ne hij] at hx
    by_cases hik : i = k
    · subst hik
      obtain rfl : t' = y := by
        rw [List.getElem?_set_self', ht] at hy
        exact Option.some.inj hy
      exact fun hc => hother hij hx hc.symm
    · rw [List.getElem?_set_ne hik] at hy
      exact h j k x y hjk hx hy

theorem uncrossed_step (h : Uncrossed s) (hn : NoCrossing s a) (hs : step trace s a = some s') :
    Uncrossed s' := by
  rcases step_cases hs with ⟨op, -, rfl⟩ | ⟨i, t, l, m, es, rfl, ht, htodo, -, rfl⟩ |
    ⟨i, t, l, es, rfl, ht, htodo, rfl⟩
  · -- the new one holds nothing
    have hold : ∀ {i : ℕ} {t}, (s ++ [⟨[], trace op⟩])[i]? = some t → t.held ≠ [] →
        s[i]? = some t := by
      intro i t hi hne
      rcases Nat.lt_or_ge i s.length with hlt | hge
      · rwa [List.getElem?_append_left hlt] at hi
      · rw [List.getElem?_append_right hge] at hi
        have := List.mem_of_getElem? hi
        exact absurd (by rw [List.mem_singleton.1 this]) hne
    intro i j t u hij ht hu hc
    obtain ⟨x, hx, y, hy, -⟩ := id hc
    exact h i j t u hij (hold ht (List.ne_nil_of_mem hx)) (hold hu (List.ne_nil_of_mem hy)) hc
  · refine h.set ht fun u hu hc hc' => ?_
    rcases crossed_of_acquire htodo hc' with hc' | hc'
    · exact hc hc'
    · exact hn t ht u hu hc'
  · exact h.set ht fun u _ hc hc' => hc (crossed_of_release htodo hc')

/-- One of two crossed operations that goes on stays crossed: it cannot take what the other holds,
and does not give back what the other waits for. -/
theorem Crossed.next {t' : Thread L} (h : Crossed t u) (hu : u ∈ s) (hn : next s t = some t') :
    Crossed t' u := by
  obtain ⟨x, hx, y, hy, hty, hux⟩ := h
  unfold Locking.next at hn
  split at hn
  next => cases hn
  next l m es htodo =>
    split_ifs at hn with hf
    cases hn
    refine ⟨x, List.mem_cons_of_mem _ hx, y, hy, ?_, hux⟩
    rw [htodo, nests_acquire, Bool.or_eq_true] at hty
    refine hty.resolve_left fun hl => ?_
    simp only [Bool.and_eq_true, decide_eq_true_eq] at hl
    have hfree := List.all_eq_true.1 (List.all_eq_true.1 hf u hu) y hy
    simp [hl.1, hl.2] at hfree
  next l es htodo =>
    cases hn
    rw [htodo, nests_release, Bool.and_eq_true] at hty
    have hne : x.1 ≠ l := Ne.symm (by simpa using hty.1)
    exact ⟨x, List.mem_filter.2 ⟨hx, by simpa using hne⟩, y, hy, hty.2, hux⟩

/-- Operations that have crossed stay so for ever. -/
theorem crossed_step {i j : ℕ} (hij : i ≠ j) (hs : step trace s a = some s')
    (h : ∃ t ∈ s[i]?, ∃ u ∈ s[j]?, Crossed t u) : ∃ t ∈ s'[i]?, ∃ u ∈ s'[j]?, Crossed t u := by
  obtain ⟨t, ht, u, hu, hc⟩ := h
  cases a with
  | start op =>
    cases hs
    refine ⟨t, ?_, u, ?_, hc⟩
    · exact List.getElem?_append_left (List.getElem?_eq_some_iff.1 ht).1 ▸ ht
    · exact List.getElem?_append_left (List.getElem?_eq_some_iff.1 hu).1 ▸ hu
  | go k =>
    obtain ⟨w, hw, hs⟩ := Option.bind_eq_some_iff.1 hs
    obtain ⟨w', hn, rfl⟩ := Option.map_eq_some_iff.1 hs
    have hset : ∀ {n x}, s[n]? = some x → k ≠ n → (s.set k w')[n]? = some x :=
      fun hx hne => (List.getElem?_set_ne hne).trans hx
    have hself : (s.set k w')[k]? = some w' := by rw [List.getElem?_set_self', hw]; rfl
    by_cases hki : k = i
    · subst hki
      obtain rfl : t = w := Option.some.inj (ht.symm.trans hw)
      exact ⟨w', hself, u, hset hu hij, hc.next (List.mem_of_getElem? hu) hn⟩
    · by_cases hkj : k = j
      · subst hkj
        obtain rfl : u = w := Option.some.inj (hu.symm.trans hw)
        exact ⟨t, hset ht hki, w', hself, (hc.symm.next (List.mem_of_getElem? ht) hn).symm⟩
      · exact ⟨t, hset ht hki, u, hset hu hkj, hc⟩

end Crossing

end Locking
