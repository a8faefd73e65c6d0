import Kumofs.System.Locks

/-!
# Where operations wait for each other

The locks are taken in one order except by two operations: `ReplaceCopyEnd` takes `hs_mutex` under
`m_replace_mutex` when the copy is finished, and `GetStatus` takes `whs` under `rhs`. A deadlock has
one of these in it, and the one it waits for has still to take what it holds. So there is none as
long as no operation comes to cross another one: one that starts a replace and the last
`ReplaceCopyEnd`, or `GetStatus` and `HashSpaceSync` or `replace_copy`.
-/

namespace Kumofs.Locks

open Locking

/-- What is held when a lock is taken. -/
inductive Edge : List (Lock × Mode) → Lock → Mode → Prop
  | first (l : Lock) (m : Mode) : Edge [] l m
  | newServers : Edge [(.hs, .write)] .newServers .write
  /-- `start_replace`. -/
  | replace : Edge [(.hs, .write)] .replace .write
  /-- `finish_replace_copy`. -/
  | finish : Edge [(.replace, .write)] .hs .write
  | rhsWrite (m : Mode) : Edge [(.whs, m)] .rhs .write
  | rhsRead : Edge [(.whs, .read)] .rhs .read
  /-- `GetStatus`. -/
  | whsRead : Edge [(.rhs, .read)] .whs .read
  | state : Edge [(.accumSet, .write)] .state .write

theorem allowed_sendOffer {es : List (Event Lock)} (h : Allowed Edge [] es) :
    Allowed Edge [] (sendOffer ++ es) :=
  ⟨.first _ _, .state, h⟩

theorem allowed_sendOffers {es : List (Event Lock)} (h : Allowed Edge [] es) :
    ∀ n, Allowed Edge [] (sendOffers n ++ es)
  | 0 => allowed_sendOffer h
  | n + 1 => by
    rw [sendOffers, List.append_assoc]
    exact allowed_sendOffer (allowed_sendOffers h n)

theorem ManagerOp.allowed (op : ManagerOp) : Allowed Edge [] op.trace := by
  cases op with
  | addServer | hashSpaceSync | setAutoReplace => exact ⟨.first _ _, .newServers, trivial⟩
  | removeServer autoReplace =>
    cases autoReplace with
    | true => exact ⟨.first _ _, .newServers, trivial⟩
    | false => exact ⟨.first _ _, .newServers, .first _ _, trivial⟩
  | replaceElection again | attach again =>
    cases again with
    | true => exact ⟨.first _ _, .newServers, .replace, trivial⟩
    | false => exact ⟨.first _ _, .newServers, trivial⟩
  | resReplaceElection self =>
    cases self with
    | true => exact ⟨.first _ _, .replace, trivial⟩
    | false => trivial
  | onReplaceElection delegated =>
    cases delegated with
    | true => exact ⟨.first _ _, .newServers, .replace, trivial⟩
    | false => exact ⟨.first _ _, trivial⟩
  | replaceCopyEnd finish =>
    cases finish with
    | true => exact ⟨.first _ _, .finish, trivial⟩
    | false => exact ⟨.first _ _, trivial⟩
  | getNodesInfo => exact ⟨.first _ _, .first _ _, trivial⟩
  | detach replace =>
    cases replace with
    | true => exact ⟨.first _ _, .replace, trivial⟩
    | false => exact ⟨.first _ _, trivial⟩
  | startReplace => exact ⟨.first _ _, .replace, trivial⟩
  | replaceDeleteEnd | hashSpaceRequest | keepAlive | partnerConnected =>
    exact ⟨.first _ _, trivial⟩

theorem ServerOp.allowed (op : ServerOp) : Allowed Edge [] op.trace := by
  -- the last lock of a copy
  have hend : Allowed Edge [] [lock .state, unlock .state] := ⟨.first _ _, trivial⟩
  cases op with
  | get | statRhs | statWhs | resWHashSpaceRequest | resRHashSpaceRequest | resReplaceOffer =>
    exact ⟨.first _ _, trivial⟩
  | write path =>
    cases path with
    | whsOnly => exact ⟨.first _ _, trivial⟩
    | both | notReady => exact ⟨.first _ _, .rhsRead, trivial⟩
  | replicate byRhs =>
    cases byRhs with
    | true => exact ⟨.first _ _, trivial⟩
    | false => exact ⟨.first _ _, trivial⟩
  | statReplace => exact ⟨.first _ _, .whsRead, trivial⟩
  | hashSpaceSync | replaceDelete => exact ⟨.first _ _, .rhsWrite _, trivial⟩
  | replaceCopy limits =>
    refine ⟨.first _ _, .first _ _, .rhsWrite _, ?_⟩
    cases limits with
    | none => exact hend
    | some n => exact allowed_sendOffers hend n
  | fullReplaceCopy limits => exact ⟨.first _ _, allowed_sendOffers hend limits⟩
  | streamAccepted sent =>
    cases sent with
    | true => exact ⟨.first _ _, .first _ _, trivial⟩
    | false => exact ⟨.first _ _, trivial⟩

theorem Op.allowed (op : Op) : Allowed Edge [] op.trace := by
  cases op with
  | manager op => exact op.allowed
  | server op => exact op.allowed

/-! ## A deadlock -/

/-- Where a lock stands in the order of all operations but two. -/
def rank : Lock → ℕ
  | .hs | .whs | .accumSet => 0
  | .newServers | .replace | .rhs | .state => 1

variable {s : List (Thread Lock)}

/-- The rank of the lock that an operation waits for. -/
def wanted (s : List (Thread Lock)) (i : ℕ) : ℕ := (s[i]?.bind (·.wants)).elim 0 (rank ·.1)

/-- An operation in a deadlock: what it holds, what it waits for, and the next one, which holds that
and is in the deadlock too. -/
theorem exists_edge (ha : ∀ t ∈ s, Allowed Edge t.held t.todo) {i : ℕ}
    (h : Relation.TransGen (WaitsFor s) i i) :
    ∃ t l m j u m', s[i]? = some t ∧ t.wants = some (l, m) ∧ Edge t.held l m ∧
      s[j]? = some u ∧ (l, m') ∈ u.held ∧ m.conflicts m' = true ∧
      Relation.TransGen (WaitsFor s) j j := by
  obtain ⟨j, hij, hji⟩ := Relation.TransGen.head'_iff.1 h
  obtain ⟨t, ht, u, hu, l, m, m', hw, hl, hm⟩ := id hij
  exact ⟨t, l, m, j, u, m', ht, hw, (ha t (List.mem_of_getElem? ht)).of_wants hw, hu, hl, hm,
    Relation.TransGen.tail' hji hij⟩

/-- No operation waits while it holds `new_servers_mutex`. -/
theorem not_mem_newServers {held : List (Lock × Mode)} {l : Lock} {m m' : Mode}
    (h : Edge held l m) : (Lock.newServers, m') ∉ held := by
  cases h <;> simp

theorem not_deadlock_of_uncrossed (ha : ∀ t ∈ s, Allowed Edge t.held t.todo) (hu : Uncrossed s) :
    ¬ Deadlock s := by
  rintro ⟨a, hcyc⟩
  -- `t` holds a lock that comes not before the one it waits for
  obtain ⟨i, j, hij, hle, hj⟩ := Cyclic.exists_not_lt (wanted s) hcyc
  obtain ⟨t, l, m, k, u, n, ht, hwt, hedge, hku, hlu, hmn, hk⟩ := exists_edge ha hj
  obtain ⟨t₀, ht₀, t', ht', l₀, m₀, m₀', hw₀, hl₀, -⟩ := hij
  obtain rfl : t = t' := Option.some.inj (ht.symm.trans ht')
  have hrank : rank l ≤ rank l₀ := by
    simpa [wanted, ht, hwt, Option.mem_def.1 ht₀, hw₀] using hle
  obtain ⟨u', l₁, m₁, o, v, n₁, hu', hwu, hedge', hov, hlv, hmn₁, ho⟩ := exists_edge ha hk
  obtain rfl : u = u' := Option.some.inj (hku.symm.trans hu')
  have hne : t.held ≠ u.held → j ≠ k := by
    rintro hne rfl
    rw [ht] at hku
    exact hne (congrArg Thread.held (Option.some.inj hku))
  cases t with | mk held todo =>
  cases u with | mk held' todo' =>
  simp only at hedge hedge' hlu hl₀ hne
  cases hedge with
  | first => exact absurd hl₀ List.not_mem_nil
  | newServers | replace | rhsRead | rhsWrite | state =>
    obtain ⟨rfl, rfl⟩ := Prod.mk.inj (List.mem_singleton.1 hl₀)
    exact absurd hrank (by decide)
  | finish =>
    -- the one that holds `hs_mutex` waits for what `t` holds
    cases hedge' with
    | newServers =>
      obtain ⟨w, l₂, m₂, -, -, -, hw, -, hedge₂, -⟩ := exists_edge ha ho
      obtain rfl : v = w := Option.some.inj (hov.symm.trans hw)
      exact not_mem_newServers hedge₂ hlv
    | replace =>
      exact hu j k _ _ (hne (by simp)) ht hku
        (crossed_of_waits hwt hlu hmn hwu (List.mem_singleton_self _) rfl)
    | _ => simp at hlu
  | whsRead =>
    -- nobody but a writer keeps a reader waiting
    cases hedge' with
    | rhsWrite m' =>
      exact hu j k _ _ (hne (by simp)) ht hku
        (crossed_of_waits hwt hlu hmn hwu (List.mem_singleton_self _) rfl)
    | rhsRead =>
      obtain ⟨-, rfl⟩ := Prod.mk.inj (List.mem_singleton.1 hlu)
      cases hmn
    | _ => simp at hlu

/-- In every run in which no operation comes to cross another one, there is no deadlock. -/
theorem not_deadlock_of_run {acts : List (Act Op)}
    (hrun : Machine.Run (step Op.trace) NoCrossing [] acts s) : ¬ Deadlock s := by
  have h : (∀ t ∈ s, Allowed Edge t.held t.todo) ∧ Uncrossed s := by
    refine Machine.Run.inv (I := fun s => (∀ t ∈ s, Allowed Edge t.held t.todo) ∧ Uncrossed s)
      (fun _ _ _ h hn hs => ?_) hrun ⟨by simp, by simp [Uncrossed]⟩
    exact ⟨allowed_step Op.allowed h.1 hs, uncrossed_step h.2 hn hs⟩
  exact not_deadlock_of_uncrossed h.1 h.2

/-- What comes of a crossing: from then on neither operation ends. -/
theorem not_ended_of_crossing {t u : Thread Lock} {s' s'' : List (Thread Lock)} {i j : ℕ}
    {acts : List (Act Op)} (hij : i ≠ j) (ht : s[i]? = some t) (hu : s[j]? = some u)
    (hc : Crosses t u) (hs : step Op.trace s (.go i) = some s')
    (hrun : Machine.Run (step Op.trace) Machine.Free s' acts s'') :
    (∀ t ∈ s''[i]?, t.todo ≠ []) ∧ ∀ u ∈ s''[j]?, u.todo ≠ [] := by
  have hcr : ∃ t ∈ s'[i]?, ∃ u ∈ s'[j]?, Crossed t u := by
    obtain ⟨w, hw, hs⟩ := Option.bind_eq_some_iff.1 hs
    obtain ⟨t', hn, rfl⟩ := Option.map_eq_some_iff.1 hs
    obtain rfl : t = w := Option.some.inj (ht.symm.trans hw)
    refine ⟨t', ?_, u, (List.getElem?_set_ne hij).trans hu, hc.crossed hn⟩
    rw [List.getElem?_set_self', ht]
    rfl
  obtain ⟨t', ht', u', hu', x, -, y, -, hty, hux⟩ :=
    Machine.Run.inv (fun _ _ _ h _ hs => crossed_step hij hs h) hrun hcr
  constructor
  · rintro t hm hnil
    obtain rfl : t = t' := Option.some.inj (Option.mem_def.1 hm ▸ ht')
    rw [hnil] at hty
    cases hty
  · rintro u hm hnil
    obtain rfl : u = u' := Option.some.inj (Option.mem_def.1 hm ▸ hu')
    rw [hnil] at hux
    cases hux

/-! A copy ends while another one is started. -/

section Sample

/-- `ReplaceCopyEnd` gets `m_replace_mutex`, `StartReplace` gets `hs_mutex`. -/
def overlap : List (Act Op) :=
  [.start (.manager (.replaceCopyEnd true)), .start (.manager .startReplace), .go 0, .go 1]

theorem deadlock_overlap : ∃ s : List (Thread Lock),
    Machine.Run (step Op.trace) Machine.Free [] overlap s ∧ Deadlock s := by
  let s : List (Thread Lock) :=
    [⟨[(.replace, .write)], [lock .hs, unlock .hs, unlock .replace]⟩,
      ⟨[(.hs, .write)], [lock .replace, unlock .replace, unlock .hs]⟩]
  have h01 : WaitsFor s 0 1 := ⟨_, rfl, _, rfl, .hs, .write, .write, rfl, by simp, rfl⟩
  have h10 : WaitsFor s 1 0 := ⟨_, rfl, _, rfl, .replace, .write, .write, rfl, by simp, rfl⟩
  exact ⟨s, Machine.exec_run rfl, 0, .tail (.single h01) h10⟩

/-- The same operations in turn, and then `GetStatus` before `HashSpaceSync`. -/
def inTurn : List (Act Op) :=
  [.start (.manager (.replaceCopyEnd true)), .start (.manager .startReplace), .go 0, .go 0, .go 0,
    .go 0, .go 1, .go 1, .start (.server .statReplace), .start (.server .hashSpaceSync), .go 2,
    .go 2, .go 2, .go 2, .go 3]

theorem not_deadlock_inTurn : ∃ s : List (Thread Lock),
    Machine.Run (step Op.trace) NoCrossing [] inTurn s ∧
      (∃ t ∈ s, t.held = [(.whs, .write)]) ∧ ¬ Deadlock s := by
  have h : ((Machine.execIf (step Op.trace) NoCrossing [] inTurn).any fun s =>
      decide (∃ t ∈ s, t.held = [(.whs, .write)])) = true := by decide
  obtain ⟨s, hs, hany⟩ := (Option.any_eq_true _ _).1 h
  have hrun := Machine.execIf_run hs
  exact ⟨s, hrun, of_decide_eq_true hany, not_deadlock_of_run hrun⟩

end Sample

end Kumofs.Locks
