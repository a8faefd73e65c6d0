import Kumofs.Lib.Count
import Kumofs.Rpc.Cluster

/-!
# The sessions to the nodes

No address has two sessions that can be used, whoever asks for one at the same time. A session that
can be used has an open transport, or something is under way that binds it, connects it or gives it
up.
-/

namespace Kumofs.Rpc

open Machine (Run Free)

namespace Cluster

variable {limit : UInt16} {s t u : Cluster} {a : Act} {as : List Act} {addr : Address}
  {n m i k : ℕ} {x y : Node} {task : Task}

@[simp] theorem setNode_getElem? (s : Cluster) (n : ℕ) (f : Node → Node) (m : ℕ) :
    (s.setNode n f).nodes[m]? = if n = m then s.nodes[m]?.map f else s.nodes[m]? := by
  rw [setNode, List.getElem?_modify]
  split_ifs <;> cases s.nodes[m]? <;> rfl

theorem usable_congr (h : t.nodes[n]? = s.nodes[n]?) : t.usable n = s.usable n := by
  unfold usable
  rw [h]

theorem usable_iff : s.usable n = true ↔
    ∃ x, s.nodes[n]? = some x ∧ x.alive = true ∧ x.lost = false := by
  unfold usable
  cases s.nodes[n]? <;> simp

/-! ## What becomes of a node -/

/-- What never changes back. -/
structure Evolves (x y : Node) : Prop where
  origin : y.origin = x.origin
  lost : x.lost = true → y.lost = true
  alive : y.alive = true → x.alive = true
  role : ∀ r ∈ x.role, r ∈ y.role

theorem Evolves.refl (x : Node) : Evolves x x := ⟨rfl, id, id, fun _ => id⟩

theorem Evolves.trans {z : Node} (h : Evolves x y) (h' : Evolves y z) : Evolves x z :=
  ⟨h'.origin.trans h.origin, h'.lost ∘ h.lost, h.alive ∘ h'.alive,
    fun r hr => h'.role r (h.role r hr)⟩

/-- No node goes, and all that there are evolve. -/
def Grows (s t : Cluster) : Prop :=
  ∀ (n : ℕ) (x : Node), s.nodes[n]? = some x → ∃ y, t.nodes[n]? = some y ∧ Evolves x y

theorem Grows.refl (s : Cluster) : Grows s s := fun _ x hx => ⟨x, hx, .refl x⟩

theorem Grows.trans (h : Grows s t) (h' : Grows t u) : Grows s u := by
  intro n x hx
  obtain ⟨y, hy, hxy⟩ := h n x hx
  obtain ⟨z, hz, hyz⟩ := h' n y hy
  exact ⟨z, hz, hxy.trans hyz⟩

theorem Grows.of_eq (h : t.nodes = s.nodes) : Grows s t := by
  intro n x hx
  exact ⟨x, h ▸ hx, .refl x⟩

theorem grows_setNode {f : Node → Node} (hf : ∀ x, Evolves x (f x)) : Grows s (s.setNode n f) := by
  intro m x hx
  rw [setNode_getElem?, hx]
  split_ifs with hm
  · exact ⟨f x, rfl, hf x⟩
  · exact ⟨x, rfl, .refl x⟩

theorem grows_append (h : t.nodes = s.nodes ++ [x]) : Grows s t := by
  intro m y hy
  obtain ⟨hm, -⟩ := List.getElem?_eq_some_iff.1 hy
  exact ⟨y, by rw [h, List.getElem?_append_left hm, hy], .refl y⟩

theorem Grows.usable (h : Grows s t) (hn : n < s.nodes.length) (ht : t.usable n = true) :
    s.usable n = true := by
  obtain ⟨y, hy, halive, hlost⟩ := usable_iff.1 ht
  obtain ⟨y', hy', he⟩ := h n s.nodes[n] (List.getElem?_eq_getElem hn)
  obtain rfl := Option.some.inj (hy.symm.trans hy')
  refine usable_iff.2 ⟨_, List.getElem?_eq_getElem hn, he.alive halive, ?_⟩
  by_contra hl
  rw [he.lost (by simpa using hl)] at hlost
  cases hlost

theorem Grows.length_le (h : Grows s t) : s.nodes.length ≤ t.nodes.length := by
  by_contra hlt
  obtain ⟨y, hy, -⟩ := h t.nodes.length s.nodes[t.nodes.length]
    (List.getElem?_eq_getElem (by omega))
  simp at hy

theorem grows_bind (t : ℕ) : Grows s (s.bind n t) :=
  grows_setNode fun _ => ⟨rfl, id, id, fun _ => id⟩

theorem grows_unbind (t : ℕ) : Grows s (s.unbind n t) := by
  have h : Grows s (s.setNode n fun x => { x with binds := x.binds.filter (· != t) }) :=
    grows_setNode fun _ => ⟨rfl, id, id, fun _ => id⟩
  unfold unbind
  simp only []
  split_ifs
  · exact h.trans (.of_eq rfl)
  · exact h

theorem grows_close (t : ℕ) (session : Option ℕ) : Grows s (s.close t session) := by
  cases session with
  | none => exact .of_eq rfl
  | some n => exact grows_unbind (s := s.setState t .closed) t

theorem grows_rebind (t : ℕ) : Grows s (s.rebind n t) := by
  have h : ∀ u : Cluster,
      Grows u ((u.setTransport t fun x => { x with session := some n }).bind n t) :=
    fun u => grows_bind (s := u.setTransport t fun x => { x with session := some n }) t
  unfold rebind
  simp only []
  split
  · exact (grows_unbind t).trans (h _)
  · exact h s

theorem grows_getSession (use : Use) : Grows s (s.getSession addr use) := by
  unfold getSession
  split <;> exact .of_eq rfl

theorem grows_search (use : Use) : Grows s (s.search addr use) := by
  unfold search
  split
  · exact .of_eq rfl
  · simp only []
    split_ifs <;> exact grows_append rfl

theorem grows_got (use : Use) : Grows s (s.got addr n use) := by
  cases use with
  | session => exact .refl s
  | node =>
    refine grows_setNode fun x => ?_
    split_ifs
    · exact .refl x
    · exact ⟨rfl, id, id, fun _ => id⟩
  | rebind t role => exact (grows_rebind t).trans (.of_eq rfl)

theorem grows_transportLost : Grows s (s.transportLost limit n x) := by
  unfold transportLost
  split_ifs <;> exact .of_eq rfl

theorem grows_reconnect : Grows s (s.reconnect n x) := by
  unfold reconnect
  split_ifs <;> exact .of_eq rfl

theorem grows_forceLost {gaveUp : Bool} : Grows s (s.forceLost n gaveUp) := by
  have h : Grows s (s.setNode n fun x => { x with lost := true }) :=
    grows_setNode fun _ => ⟨rfl, fun _ => rfl, id, fun _ => id⟩
  unfold forceLost
  simp only []
  split_ifs
  · exact h.trans (.of_eq rfl)
  · exact h

theorem grows_lostNode : Grows s (s.lostNode n x) := by
  unfold lostNode
  split <;> exact .of_eq rfl

/-- A node without a role gets one. -/
theorem grows_setRole {t : ℕ} {role : UInt8} (hx : s.nodes[n]? = some x) :
    Grows s (s.setRole addr n t role x) := by
  unfold setRole
  split
  · exact .of_eq rfl
  · rename_i hrole
    intro m y hy
    show ∃ z, (s.setNode n _).nodes[m]? = some z ∧ Evolves y z
    rw [setNode_getElem?]
    split_ifs with hm
    · subst hm
      obtain rfl := Option.some.inj (hx.symm.trans hy)
      rw [hx]
      refine ⟨_, rfl, rfl, id, id, fun r hr => ?_⟩
      rw [hrole] at hr
      cases hr
    · exact ⟨y, hy, .refl y⟩

theorem grows_setAddr {t : ℕ} {role : UInt8} : Grows s (s.setAddr addr n t role) := by
  have h : Grows (s.setState t .cluster)
      ((s.setState t .cluster).setNode n fun x => { x with addr := addr }) :=
    grows_setNode fun _ => ⟨rfl, id, id, fun _ => id⟩
  exact h.trans (.of_eq rfl)

theorem grows_keepAliveFailed : Grows s (s.keepAliveFailed n x) := by
  have h : Grows s (s.setNode n fun x =>
      { x with connectRetriedCount := x.connectRetriedCount + 1 }) :=
    grows_setNode fun _ => ⟨rfl, id, id, fun _ => id⟩
  have h' : ∀ {u : Cluster}, Grows u (u.setNode n fun x => { x with binds := [] }) :=
    grows_setNode fun _ => ⟨rfl, id, id, fun _ => id⟩
  unfold keepAliveFailed shutdown
  simp only []
  split_ifs
  · exact h.trans h'
  · exact h.trans (h'.trans (.of_eq rfl))
  · exact h

theorem grows_run (h : s.run limit task = some t) : Grows s t := by
  cases task with
  | search addr use =>
    cases h
    exact grows_search use
  | got addr n use =>
    cases h
    exact grows_got use
  | asyncConnect addr n =>
    obtain ⟨x, -, rfl⟩ := Option.map_eq_some_iff.1 h
    unfold asyncConnect
    split_ifs <;> exact .of_eq rfl
  | connecting addr n => cases h
  | increment n =>
    cases h
    exact grows_setNode fun _ => ⟨rfl, id, id, fun _ => id⟩
  | transportLost n =>
    obtain ⟨x, -, rfl⟩ := Option.map_eq_some_iff.1 h
    exact grows_transportLost
  | reconnect n =>
    obtain ⟨x, -, rfl⟩ := Option.map_eq_some_iff.1 h
    exact grows_reconnect
  | forceLost n gaveUp =>
    obtain ⟨x, -, rfl⟩ := Option.map_eq_some_iff.1 h
    exact grows_forceLost
  | lostNode n =>
    obtain ⟨x, -, rfl⟩ := Option.map_eq_some_iff.1 h
    exact grows_lostNode
  | setRole addr n t role =>
    obtain ⟨x, hx, rfl⟩ := Option.map_eq_some_iff.1 h
    exact grows_setRole hx
  | setAddr addr n t role =>
    cases h
    exact grows_setAddr
  | newNode addr n role =>
    cases h
    exact .of_eq rfl

theorem step_grows (h : s.step limit a = some t) : Grows s t := by
  cases a with
  | getSession addr node =>
    cases h
    exact grows_getSession _
  | run k =>
    obtain ⟨task, -, h⟩ := Option.bind_eq_some_iff.1 h
    exact grows_run (s := s.drop k) h
  | connected k =>
    simp only [step] at h
    split at h
    · rename_i n _
      cases h
      exact grows_setNode (s := s) fun _ => ⟨rfl, id, id, fun _ => id⟩
    · cases h
  | connectFailed k =>
    simp only [step] at h
    split at h
    · obtain ⟨x, -, rfl⟩ := Option.map_eq_some_iff.1 h
      unfold connectFailed
      split_ifs <;> exact .of_eq rfl
    · cases h
  | accepted =>
    cases h
    exact .of_eq rfl
  | initMessage t addr role =>
    simp only [step] at h
    split at h
    · rename_i session _
      cases h
      cases session with
      | some n => exact .of_eq rfl
      | none =>
        simp only [initMessage]
        split_ifs
        · exact grows_getSession (s := s.setState t .initializing) _
        · exact .of_eq rfl
    · cases h
  | rpcMessage t =>
    simp only [step] at h
    split at h
    · cases h
      exact grows_close t _
    · cases h
      exact .of_eq rfl
    · cases h
  | close t =>
    simp only [step] at h
    split at h
    · split_ifs at h
      cases h
      exact grows_close t _
    · cases h
  | keepAliveFailed n =>
    simp only [step] at h
    split_ifs at h
    obtain ⟨x, -, rfl⟩ := Option.map_eq_some_iff.1 h
    exact grows_keepAliveFailed
  | stepTimeout =>
    cases h
    exact .of_eq rfl
  | expire n =>
    simp only [step] at h
    split_ifs at h
    cases h
    exact grows_setNode fun _ => ⟨rfl, id, nofun, fun _ => id⟩

/-! ## One session for an address -/

theorem sweep_sublist (s : Cluster) (addr : Address) : ∀ l, (s.sweep addr l).Sublist l
  | [] => .slnil
  | p :: l => by
    unfold sweep
    split_ifs
    · exact .refl _
    · exact (sweep_sublist s addr l).cons p
    · exact (sweep_sublist s addr l).cons_cons p

theorem lookup_none (h : s.lookup addr = none) :
    ∀ p ∈ s.sessions, p.1 = addr → s.usable p.2 = false := by
  intro p hp hpa
  simp only [lookup, Option.map_eq_none_iff, List.find?_eq_none] at h
  simpa [hpa] using h p hp

theorem lookup_some (h : s.lookup addr = some n) : (addr, n) ∈ s.sessions ∧ s.usable n = true := by
  obtain ⟨p, hp, rfl⟩ := Option.map_eq_some_iff.1 h
  have hfound := List.find?_some hp
  simp only [Bool.and_eq_true, beq_iff_eq] at hfound
  obtain ⟨rfl, husable⟩ := hfound
  exact ⟨List.mem_of_find?_eq_some hp, husable⟩

/-- No address has two sessions that can be used. -/
structure Single (s : Cluster) : Prop where
  bounded : ∀ p ∈ s.sessions, p.2 < s.nodes.length
  single : ∀ addr, s.sessions.countP (fun p => p.1 = addr ∧ s.usable p.2 = true) ≤ 1

/-- Sessions go, and nodes grow. -/
theorem Single.mono (hs : Single s) (hg : Grows s t) (hsub : t.sessions.Sublist s.sessions) :
    Single t := by
  refine ⟨fun p hp => (hs.bounded p (hsub.mem hp)).trans_le hg.length_le, fun addr => ?_⟩
  refine le_trans (List.countP_mono_left fun p hp hpa => ?_)
    ((hsub.countP_le (p := fun p => decide (p.1 = addr ∧ s.usable p.2 = true))).trans
      (hs.single addr))
  simp only [decide_eq_true_eq] at hpa ⊢
  exact ⟨hpa.1, hg.usable (hs.bounded p (hsub.mem hp)) hpa.2⟩

theorem usable_create (hn : n < s.nodes.length) : (s.create addr).usable n = s.usable n :=
  usable_congr (List.getElem?_append_left hn)

theorem Single.create (hs : Single s) (hnone : s.lookup addr = none) : Single (s.create addr) := by
  have hlen : (s.create addr).nodes.length = s.nodes.length + 1 := by
    simp [Cluster.create]
  have hbound : ∀ p ∈ s.sweep addr s.sessions, p.2 < s.nodes.length := fun p hp =>
    hs.bounded p ((sweep_sublist s addr _).mem hp)
  refine ⟨fun p hp => ?_, fun a => ?_⟩
  · rw [hlen]
    obtain hp | hp := List.mem_append.1 hp
    · exact Nat.lt_succ_of_lt (hbound p hp)
    · rw [List.mem_singleton.1 hp]
      exact Nat.lt_succ_self _
  · show (s.sweep addr s.sessions ++ [(addr, s.nodes.length)]).countP _ ≤ 1
    have hcongr : (s.sweep addr s.sessions).countP
        (fun p => p.1 = a ∧ (s.create addr).usable p.2 = true) =
        (s.sweep addr s.sessions).countP (fun p => p.1 = a ∧ s.usable p.2 = true) :=
      List.countP_congr fun p hp => by simp only [usable_create (hbound p hp)]
    have hle := (sweep_sublist s addr s.sessions).countP_le
      (p := fun p => decide (p.1 = a ∧ s.usable p.2 = true))
    rw [List.countP_append, hcongr, List.countP_singleton]
    by_cases ha : addr = a
    · subst ha
      have hzero : s.sessions.countP (fun p => p.1 = addr ∧ s.usable p.2 = true) = 0 := by
        rw [List.countP_eq_zero]
        intro p hp hpa
        simp only [decide_eq_true_eq] at hpa
        rw [lookup_none hnone p hp hpa.1] at hpa
        exact absurd hpa.2 (by simp)
      split_ifs <;> omega
    · rw [if_neg (by simp [ha])]
      have := hs.single a
      omega

theorem run_sessions (h : s.run limit task = some t) :
    t.sessions = s.sessions ∨ ∃ addr use, task = .search addr use ∧ t = s.search addr use := by
  cases task with
  | search addr use =>
    cases h
    exact .inr ⟨addr, use, rfl, rfl⟩
  | got addr n use =>
    cases h
    cases use with
    | session => exact .inl rfl
    | node => exact .inl rfl
    | rebind t role =>
      simp only [got, rebind]
      split
      · unfold unbind
        simp only []
        split_ifs <;> exact .inl rfl
      · exact .inl rfl
  | asyncConnect addr n =>
    obtain ⟨x, -, rfl⟩ := Option.map_eq_some_iff.1 h
    unfold asyncConnect
    split_ifs <;> exact .inl rfl
  | connecting addr n => cases h
  | increment n =>
    cases h
    exact .inl rfl
  | transportLost n =>
    obtain ⟨x, -, rfl⟩ := Option.map_eq_some_iff.1 h
    unfold transportLost
    split_ifs <;> exact .inl rfl
  | reconnect n =>
    obtain ⟨x, -, rfl⟩ := Option.map_eq_some_iff.1 h
    unfold reconnect
    split_ifs <;> exact .inl rfl
  | forceLost n gaveUp =>
    obtain ⟨x, -, rfl⟩ := Option.map_eq_some_iff.1 h
    unfold forceLost
    simp only []
    split_ifs <;> exact .inl rfl
  | lostNode n =>
    obtain ⟨x, -, rfl⟩ := Option.map_eq_some_iff.1 h
    unfold lostNode
    split <;> exact .inl rfl
  | setRole addr n t role =>
    obtain ⟨x, hx, rfl⟩ := Option.map_eq_some_iff.1 h
    unfold setRole
    split <;> exact .inl rfl
  | setAddr addr n t role =>
    cases h
    exact .inl rfl
  | newNode addr n role =>
    cases h
    exact .inl rfl

theorem sessions_close (t : ℕ) (session : Option ℕ) :
    (s.close t session).sessions = s.sessions := by
  cases session with
  | none => rfl
  | some n =>
    simp only [close, unbind]
    split_ifs <;> rfl

theorem sessions_getSession (use : Use) : (s.getSession addr use).sessions = s.sessions := by
  unfold getSession
  split <;> rfl

theorem sublist_of_eq {α : Type*} {l l' : List α} (h : l = l') : l.Sublist l' := h ▸ .refl l

/-- Sessions come where one is searched for under the write lock. -/
theorem step_sessions (h : s.step limit a = some t) : t.sessions.Sublist s.sessions ∨
    ∃ k addr use, s.tasks[k]? = some (.search addr use) ∧ t = (s.drop k).search addr use := by
  cases a with
  | getSession addr node =>
    cases h
    exact .inl (sublist_of_eq (sessions_getSession _))
  | run k =>
    obtain ⟨task, htask, h⟩ := Option.bind_eq_some_iff.1 h
    obtain he | ⟨addr, use, rfl, rfl⟩ := run_sessions h
    · exact .inl (he ▸ .refl _)
    · exact .inr ⟨k, addr, use, htask, rfl⟩
  | connected k =>
    simp only [step] at h
    split at h
    · cases h
      exact .inl (.refl _)
    · cases h
  | connectFailed k =>
    simp only [step] at h
    split at h
    · obtain ⟨x, -, rfl⟩ := Option.map_eq_some_iff.1 h
      unfold connectFailed
      split_ifs <;> exact .inl (.refl _)
    · cases h
  | accepted =>
    cases h
    exact .inl (.refl _)
  | initMessage t addr role =>
    simp only [step] at h
    split at h
    · rename_i session _
      cases h
      cases session with
      | some n => exact .inl (.refl _)
      | none =>
        simp only [initMessage]
        split_ifs
        · exact .inl (sublist_of_eq (sessions_getSession (s := s.setState t .initializing) _))
        · exact .inl (.refl _)
    · cases h
  | rpcMessage t =>
    simp only [step] at h
    split at h
    · cases h
      exact .inl (sublist_of_eq (sessions_close t _))
    · cases h
      exact .inl (.refl _)
    · cases h
  | close t =>
    simp only [step] at h
    split at h
    · split_ifs at h
      cases h
      exact .inl (sublist_of_eq (sessions_close t _))
    · cases h
  | keepAliveFailed n =>
    simp only [step] at h
    split_ifs at h
    obtain ⟨x, -, rfl⟩ := Option.map_eq_some_iff.1 h
    unfold keepAliveFailed shutdown
    simp only []
    split_ifs <;> exact .inl (.refl _)
  | stepTimeout =>
    cases h
    exact .inl List.filter_sublist
  | expire n =>
    simp only [step] at h
    split_ifs at h
    cases h
    exact .inl (.refl _)

theorem Single.step (hs : Single s) (h : s.step limit a = some t) : Single t := by
  obtain hsub | ⟨k, addr, use, -, rfl⟩ := step_sessions h
  · exact hs.mono (step_grows h) hsub
  · have hdrop : Single (s.drop k) := ⟨hs.bounded, hs.single⟩
    unfold search
    split
    · exact hdrop.mono (.of_eq rfl) (sweep_sublist _ _ _)
    · rename_i hnone
      have := hdrop.create hnone
      simp only []
      split_ifs <;> exact ⟨this.bounded, this.single⟩

theorem single_init : Single init := ⟨nofun, fun _ => Nat.zero_le 1⟩

theorem run_single (h : Run (step limit) Free init as s) : Single s :=
  h.inv (fun _ _ _ hs _ hst => hs.step hst) single_init

/-- However many threads ask for it at the same time, an address has no two sessions that can be
used. -/
theorem session_unique (h : Run (step limit) Free init as s) {i j n m : ℕ}
    (hi : s.sessions[i]? = some (addr, n)) (hj : s.sessions[j]? = some (addr, m))
    (hn : s.usable n = true) (hm : s.usable m = true) : i = j := by
  refine Counting.index_unique ((run_single h).single addr) hi hj ?_ ?_
  · simp [hn]
  · simp [hm]

/-- A server. -/
def server : Address := ⟨[0x4d, 0x58, 10, 0, 0, 1]⟩

/-- Two threads ask for the session of a server before there is one. -/
def race : List Act := [.getSession server false, .getSession server true, .run 0, .run 0]

theorem session_unique_race : ∃ s i, Run (step 0) Free init race s ∧ s.tasks.length = 3 ∧
    s.sessions[i]? = some (server, 0) ∧ i = 0 :=
  have hrun : Run (step 0) Free init race _ := Machine.exec_run rfl
  ⟨_, 0, hrun, rfl, rfl, @session_unique 0 _ _ server hrun 0 0 0 0 rfl rfl rfl rfl⟩

/-! ## No session is forgotten -/

/-- The task leads to a transport for the session, or to its end. -/
def leadsTo (n : ℕ) : Task → Bool
  | .asyncConnect _ m | .connecting _ m | .transportLost m | .reconnect m | .forceLost m _
  | .got _ m (.rebind _ _) => m = n
  | .search _ _ | .got _ _ .session | .got _ _ .node | .increment _ | .lostNode _
  | .setRole _ _ _ _ | .setAddr _ _ _ _ | .newNode _ _ _ => false

def Bound (s : Cluster) (n : ℕ) : Prop := ∃ x, s.nodes[n]? = some x ∧ x.binds ≠ []

def Led (s : Cluster) (n : ℕ) : Prop := ∃ task ∈ s.tasks, leadsTo n task = true

/-- Calls for the session do not wait for nothing. -/
def Settled (s : Cluster) (n : ℕ) : Prop := s.usable n = true → Bound s n ∨ Led s n

/-- The session is as well off as before. -/
structure Keeps (n : ℕ) (s t : Cluster) : Prop where
  usable : t.usable n = true → s.usable n = true
  bound : Bound s n → Bound t n ∨ Led t n
  led : Led s n → Led t n

theorem Keeps.refl (n : ℕ) (s : Cluster) : Keeps n s s := ⟨id, .inl, id⟩

theorem Keeps.trans (h : Keeps n s t) (h' : Keeps n t u) : Keeps n s u :=
  ⟨h.usable ∘ h'.usable, fun hb => (h.bound hb).elim h'.bound (.inr ∘ h'.led), h'.led ∘ h.led⟩

theorem Settled.keeps (hs : Settled s n) (h : Keeps n s t) : Settled t n :=
  fun ht => (hs (h.usable ht)).elim h.bound (.inr ∘ h.led)

/-- More is under way, and the node is as it was. -/
theorem Keeps.of_tasks (hn : t.nodes[n]? = s.nodes[n]?) (ht : ∀ y ∈ s.tasks, y ∈ t.tasks) :
    Keeps n s t := by
  refine ⟨fun h => by rwa [usable_congr hn] at h, fun ⟨x, hx, hb⟩ => .inl ⟨x, hn ▸ hx, hb⟩, ?_⟩
  rintro ⟨task, htask, hl⟩
  exact ⟨task, ht task htask, hl⟩

theorem Keeps.of_same (hn : u.nodes = s.nodes) (ht : u.tasks = s.tasks) (h : Keeps n u t) :
    Keeps n s t :=
  (Keeps.of_tasks (congrArg (·[n]?) hn) fun _ htask => ht ▸ htask).trans h

theorem keeps_add (task : Task) : Keeps n s (s.add task) :=
  .of_tasks rfl fun _ h => List.mem_append_left _ h

theorem led_add (h : leadsTo n task = true) : Led (s.add task) n :=
  ⟨task, List.mem_append_right _ (List.mem_singleton_self task), h⟩

/-- A node that keeps a transport if it had one. -/
theorem keeps_setNode {f : Node → Node} (hf : ∀ x, (f x).alive = true → x.alive = true)
    (hl : ∀ x, x.lost = true → (f x).lost = true) (hb : ∀ x, x.binds ≠ [] → (f x).binds ≠ []) :
    Keeps n s (s.setNode m f) := by
  refine ⟨fun h => ?_, fun ⟨x, hx, hbx⟩ => .inl ?_, id⟩
  · obtain ⟨y, hy, halive, hlost⟩ := usable_iff.1 h
    rw [setNode_getElem?] at hy
    split_ifs at hy
    · obtain ⟨x, hx, rfl⟩ := Option.map_eq_some_iff.1 hy
      refine usable_iff.2 ⟨x, hx, hf x halive, ?_⟩
      by_contra hxl
      rw [hl x (by simpa using hxl)] at hlost
      cases hlost
    · exact usable_iff.2 ⟨y, hy, halive, hlost⟩
  · refine ⟨if m = n then f x else x, ?_, ?_⟩
    · rw [setNode_getElem?, hx]
      split_ifs <;> rfl
    · split_ifs
      · exact hb x hbx
      · exact hbx

theorem keeps_bind (t : ℕ) : Keeps n s (s.bind m t) :=
  keeps_setNode (fun _ => id) (fun _ => id) fun _ _ => by simp

theorem bound_bind (t : ℕ) (hx : s.nodes[n]? = some x) : Bound (s.bind n t) n := by
  refine ⟨_, by rw [bind, setNode_getElem?, if_pos rfl, hx]; rfl, by simp⟩

/-- Where the last transport goes, `transport_lost` is called. -/
theorem keeps_unbind (t : ℕ) : Keeps n s (s.unbind m t) := by
  have hnodes : (s.unbind m t).nodes =
      (s.setNode m fun x => { x with binds := x.binds.filter (· != t) }).nodes := by
    simp only [unbind]
    split_ifs <;> rfl
  have hled : Led s n → Led (s.unbind m t) n := by
    rintro ⟨task, htask, hl⟩
    simp only [unbind]
    split_ifs
    · exact ⟨task, List.mem_append_left _ htask, hl⟩
    · exact ⟨task, htask, hl⟩
  refine ⟨fun h => ?_, fun ⟨x, hx, hb⟩ => ?_, hled⟩
  · rw [usable_congr (congrArg (·[n]?) hnodes)] at h
    obtain ⟨y, hy, halive, hlost⟩ := usable_iff.1 h
    rw [setNode_getElem?] at hy
    split_ifs at hy
    · obtain ⟨x, hx, rfl⟩ := Option.map_eq_some_iff.1 hy
      exact usable_iff.2 ⟨x, hx, halive, hlost⟩
    · exact usable_iff.2 ⟨y, hy, halive, hlost⟩
  · by_cases hm : m = n
    · subst hm
      by_cases hempty : x.binds.filter (· != t) = []
      · right
        have hany : ((s.setNode m fun x =>
            { x with binds := x.binds.filter (· != t) }).nodes[m]?).any
              (fun x => x.binds.isEmpty) = true := by
          rw [setNode_getElem?, if_pos rfl, hx]
          simpa using hempty
        simp only [unbind]
        rw [if_pos hany]
        exact led_add (by simp [leadsTo])
      · exact .inl ⟨_, by rw [hnodes, setNode_getElem?, if_pos rfl, hx]; rfl, hempty⟩
    · exact .inl ⟨x, by rw [hnodes, setNode_getElem?, if_neg hm, hx], hb⟩

theorem keeps_close (t : ℕ) (session : Option ℕ) : Keeps n s (s.close t session) := by
  cases session with
  | none => exact .of_tasks rfl fun _ => id
  | some m => exact .of_same (by rfl) (by rfl) (keeps_unbind (s := s.setState t .closed) t)

theorem keeps_rebind (t : ℕ) : Keeps n s (s.rebind m t) := by
  have h : ∀ u : Cluster,
      Keeps n u ((u.setTransport t fun x => { x with session := some m }).bind m t) :=
    fun u => .of_same (by rfl) (by rfl) (keeps_bind t)
  simp only [rebind]
  split
  · exact (keeps_unbind t).trans (h _)
  · exact h s

theorem bound_rebind (t : ℕ) (hx : s.nodes[n]? = some x) : Bound (s.rebind n t) n := by
  simp only [rebind]
  split
  · obtain ⟨y, hy, -⟩ := grows_unbind t n x hx
    exact bound_bind t hy
  · exact bound_bind t hx

theorem keeps_getSession (use : Use) : Keeps n s (s.getSession addr use) := by
  unfold getSession
  split <;> exact keeps_add _

theorem keeps_search (use : Use) (hn : n < s.nodes.length) : Keeps n s (s.search addr use) := by
  have hcreate : Keeps n s (s.create addr) :=
    .of_tasks (List.getElem?_append_left hn) fun _ => id
  unfold search
  split
  · exact .of_same (by rfl) (by rfl) (keeps_add _)
  · simp only []
    split_ifs
    · exact hcreate.trans ((keeps_add _).trans (keeps_add _))
    · exact hcreate.trans (keeps_add _)

theorem search_none (h : s.lookup addr = none) (use : Use) :
    (s.search addr use).nodes = s.nodes ++ [Node.new addr] ∧
      .got addr s.nodes.length use ∈ (s.search addr use).tasks ∧
      (use.connect = true → .asyncConnect addr s.nodes.length ∈ (s.search addr use).tasks) := by
  unfold search
  rw [h]
  simp only []
  split_ifs with hc
  · exact ⟨rfl, by simp [add], fun _ => by simp [add]⟩
  · exact ⟨rfl, by simp [add], fun hc' => absurd hc' hc⟩

theorem search_some (h : s.lookup addr = some m) (use : Use) :
    s.search addr use = { s with sessions := s.sweep addr s.sessions }.add (.got addr m use) := by
  unfold search
  rw [h]

/-- A new session is connected, or is to be bound. -/
theorem settled_search (use : Use) (hs : Settled s n) : Settled (s.search addr use) n := by
  by_cases hn : n < s.nodes.length
  · exact hs.keeps (keeps_search use hn)
  · intro husable
    obtain ⟨x, hx, -⟩ := usable_iff.1 husable
    have hlt := (List.getElem?_eq_some_iff.1 hx).1
    cases hl : s.lookup addr with
    | some m =>
      rw [search_some hl use] at hlt
      exact absurd hlt hn
    | none =>
      obtain ⟨hnodes, hgot, hconnect⟩ := search_none hl use
      rw [hnodes, List.length_append, List.length_singleton] at hlt
      obtain rfl : n = s.nodes.length := by omega
      refine .inr ?_
      cases use with
      | session | node => exact ⟨_, hconnect rfl, by simp [leadsTo]⟩
      | rebind t role => exact ⟨_, hgot, by simp [leadsTo]⟩

theorem keeps_transportLost : Keeps n s (s.transportLost limit m x) := by
  unfold transportLost
  split_ifs <;> exact keeps_add _

theorem keeps_reconnect : Keeps n s (s.reconnect m x) := by
  unfold reconnect
  split_ifs <;> exact keeps_add _

theorem keeps_forceLost {gaveUp : Bool} : Keeps n s (s.forceLost m gaveUp) := by
  have h : Keeps n s (s.setNode m fun x => { x with lost := true }) :=
    keeps_setNode (fun _ => id) (fun _ _ => rfl) fun _ => id
  unfold forceLost
  simp only []
  split_ifs
  · exact h.trans (keeps_add _)
  · exact h

theorem keeps_lostNode : Keeps n s (s.lostNode m x) := by
  unfold lostNode
  split <;> exact .of_tasks rfl fun _ => id

theorem keeps_setRole {t : ℕ} {role : UInt8} : Keeps n s (s.setRole addr m t role x) := by
  unfold setRole
  split
  · exact .of_tasks rfl fun _ => id
  · have h : Keeps n s (s.setNode m fun x => { x with role := some role }) :=
      keeps_setNode (fun _ => id) (fun _ => id) fun _ => id
    exact h.trans (keeps_add _)

theorem keeps_setAddr {t : ℕ} {role : UInt8} : Keeps n s (s.setAddr addr m t role) := by
  have h : Keeps n (s.setState t .cluster)
      ((s.setState t .cluster).setNode m fun x => { x with addr := addr }) :=
    keeps_setNode (fun _ => id) (fun _ => id) fun _ => id
  exact .of_same (by rfl) (by rfl) (h.trans (keeps_add _))

/-- A session that `force_lost` was called for cannot be used. -/
theorem usable_forceLost {gaveUp : Bool} : (s.forceLost n gaveUp).usable n = false := by
  have hnodes : (s.forceLost n gaveUp).nodes =
      (s.setNode n fun x => { x with lost := true }).nodes := by
    simp only [forceLost]
    split_ifs <;> rfl
  rw [usable_congr (congrArg (·[n]?) hnodes), usable, setNode_getElem?, if_pos rfl]
  cases s.nodes[n]? <;> simp

/-- Where the transports go, `transport_lost` is called. -/
theorem keeps_shutdown (hx : ∃ y, s.nodes[m]? = some y ∧ y.binds = x.binds) :
    Keeps n s (s.shutdown m x) := by
  obtain ⟨y, hy, hbinds⟩ := hx
  have husable : ∀ {u : Cluster}, u.nodes = (s.setNode m fun x => { x with binds := [] }).nodes →
      u.usable n = true → s.usable n = true := by
    intro u hu h
    rw [usable_congr (congrArg (·[n]?) hu)] at h
    obtain ⟨z, hz, halive, hlost⟩ := usable_iff.1 h
    rw [setNode_getElem?] at hz
    split_ifs at hz
    · obtain ⟨x, hx, rfl⟩ := Option.map_eq_some_iff.1 hz
      exact usable_iff.2 ⟨x, hx, halive, hlost⟩
    · exact usable_iff.2 ⟨z, hz, halive, hlost⟩
  unfold shutdown
  simp only []
  split_ifs with hempty
  · refine ⟨husable rfl, fun ⟨z, hz, hb⟩ => .inl ?_, id⟩
    by_cases hm : m = n
    · subst hm
      obtain rfl := Option.some.inj (hy.symm.trans hz)
      rw [hbinds] at hb
      exact absurd (List.isEmpty_iff.1 hempty) hb
    · exact ⟨z, by rw [setNode_getElem?, if_neg hm, hz], hb⟩
  · refine ⟨husable rfl, fun ⟨z, hz, hb⟩ => ?_, fun ⟨task, ht, hl⟩ =>
      ⟨task, List.mem_append_left _ ht, hl⟩⟩
    by_cases hm : m = n
    · exact .inr (led_add (by simp [leadsTo, hm]))
    · refine .inl ⟨z, ?_, hb⟩
      show (s.setNode m _).nodes[n]? = some z
      rw [setNode_getElem?, if_neg hm, hz]

theorem keeps_keepAliveFailed (hx : s.nodes[m]? = some x) :
    Keeps n s (s.keepAliveFailed m x) := by
  have h : Keeps n s (s.setNode m fun x =>
      { x with connectRetriedCount := x.connectRetriedCount + 1 }) :=
    keeps_setNode (fun _ => id) (fun _ => id) fun _ => id
  have hx' : (s.setNode m fun x =>
      { x with connectRetriedCount := x.connectRetriedCount + 1 }).nodes[m]? =
      some { x with connectRetriedCount := x.connectRetriedCount + 1 } := by
    rw [setNode_getElem?, if_pos rfl, hx]
    rfl
  unfold keepAliveFailed
  simp only []
  split_ifs
  · exact h.trans (keeps_shutdown ⟨_, hx', rfl⟩)
  · exact h

/-- The session is as well off as before, once the task is over that was for it. -/
theorem Settled.drop (hs : Settled s n) (hk : s.tasks[k]? = some task)
    (h : Keeps n (s.drop k) t) (hl : leadsTo n task = true → s.usable n = true →
      t.usable n = true → Bound t n ∨ Led t n) : Settled t n := by
  intro ht
  have husable := h.usable ht
  obtain hb | ⟨other, hother, hlo⟩ := hs husable
  · exact h.bound hb
  · obtain ⟨j, hj⟩ := List.mem_iff_getElem?.1 hother
    by_cases hjk : j = k
    · subst hjk
      obtain rfl := Option.some.inj (hk.symm.trans hj)
      exact hl hlo husable ht
    · exact .inr (h.led ⟨other, List.mem_eraseIdx_iff_getElem?.2 ⟨j, hjk, hj⟩, hlo⟩)

theorem Settled.run (hs : Settled s n) (hk : s.tasks[k]? = some task)
    (h : (s.drop k).run limit task = some t) : Settled t n := by
  cases task with
  | search addr use =>
    cases h
    exact settled_search use (hs.drop hk (.refl n _) nofun)
  | got addr m use =>
    cases h
    cases use with
    | session => exact hs.drop hk (.refl n _) nofun
    | node =>
      refine hs.drop hk (keeps_setNode (fun x => ?_) (fun x => ?_) fun x => ?_) nofun
      · split_ifs <;> exact id
      · split_ifs <;> exact id
      · split_ifs <;> exact id
    | rebind t role =>
      refine hs.drop hk ((keeps_rebind t).trans (keeps_add _)) fun hl husable _ => ?_
      obtain rfl : m = n := by simpa [leadsTo] using hl
      obtain ⟨x, hx, -⟩ := usable_iff.1 husable
      obtain ⟨y, hy, hb⟩ := bound_rebind (s := s.drop k) t hx
      exact .inl ⟨y, hy, hb⟩
  | asyncConnect addr m =>
    obtain ⟨x, hx, rfl⟩ := Option.map_eq_some_iff.1 h
    unfold asyncConnect
    split_ifs with hbound
    · refine hs.drop hk (.refl n _) fun hl _ _ => ?_
      obtain rfl : m = n := by simpa [leadsTo] using hl
      simp only [Bool.and_eq_true, Bool.not_eq_true', List.isEmpty_eq_false_iff] at hbound
      exact .inl ⟨x, hx, hbound.2⟩
    · refine hs.drop hk ((keeps_add _).trans (keeps_add _)) fun hl _ _ => .inr ?_
      exact (keeps_add _).led (led_add hl)
  | connecting addr m => cases h
  | increment m =>
    cases h
    exact hs.drop hk (keeps_setNode (fun _ => id) (fun _ => id) fun _ => id) nofun
  | transportLost m =>
    obtain ⟨x, -, rfl⟩ := Option.map_eq_some_iff.1 h
    refine hs.drop hk keeps_transportLost fun hl _ _ => .inr ?_
    obtain rfl : m = n := by simpa [leadsTo] using hl
    unfold transportLost
    split_ifs <;> exact led_add (by simp [leadsTo])
  | reconnect m =>
    obtain ⟨x, -, rfl⟩ := Option.map_eq_some_iff.1 h
    refine hs.drop hk keeps_reconnect fun hl _ _ => .inr ?_
    obtain rfl : m = n := by simpa [leadsTo] using hl
    unfold reconnect
    split_ifs <;> exact led_add (by simp [leadsTo])
  | forceLost m gaveUp =>
    obtain ⟨x, -, rfl⟩ := Option.map_eq_some_iff.1 h
    refine hs.drop hk keeps_forceLost fun hl _ husable => ?_
    obtain rfl : m = n := by simpa [leadsTo] using hl
    rw [usable_forceLost] at husable
    cases husable
  | lostNode m =>
    obtain ⟨x, -, rfl⟩ := Option.map_eq_some_iff.1 h
    exact hs.drop hk keeps_lostNode (by simp [leadsTo])
  | setRole addr m t role =>
    obtain ⟨x, hx, rfl⟩ := Option.map_eq_some_iff.1 h
    exact hs.drop hk keeps_setRole (by simp [leadsTo])
  | setAddr addr m t role =>
    cases h
    exact hs.drop hk keeps_setAddr (by simp [leadsTo])
  | newNode addr m role =>
    cases h
    exact hs.drop hk (.of_tasks rfl fun _ => id) (by simp [leadsTo])

theorem Settled.step (hs : Settled s n) (h : s.step limit a = some t) : Settled t n := by
  cases a with
  | getSession addr node =>
    cases h
    exact hs.keeps (keeps_getSession _)
  | run k =>
    obtain ⟨task, hk, h⟩ := Option.bind_eq_some_iff.1 h
    exact hs.run hk h
  | connected k =>
    simp only [Cluster.step] at h
    split at h
    · rename_i addr m hk
      cases h
      refine hs.drop hk (.of_same (by rfl) (by rfl) (keeps_bind _)) fun hl husable _ => ?_
      obtain rfl : m = n := by simpa [leadsTo] using hl
      obtain ⟨x, hx, -⟩ := usable_iff.1 husable
      exact .inl (bound_bind _ hx)
    · cases h
  | connectFailed k =>
    simp only [Cluster.step] at h
    split at h
    · rename_i addr m hk
      obtain ⟨x, -, rfl⟩ := Option.map_eq_some_iff.1 h
      unfold connectFailed
      split_ifs
      · exact hs.drop hk (keeps_add _) fun hl _ _ => .inr (led_add hl)
      · exact hs.drop hk (keeps_add _) fun hl _ _ => .inr (led_add hl)
    · cases h
  | accepted =>
    cases h
    exact hs.keeps (.of_tasks rfl fun _ => id)
  | initMessage t addr role =>
    simp only [Cluster.step] at h
    split at h
    · rename_i session _
      cases h
      cases session with
      | some m => exact hs.keeps (.of_same (by rfl) (by rfl) (keeps_add _))
      | none =>
        simp only [initMessage]
        split_ifs
        · exact hs.keeps (.of_same (by rfl) (by rfl) (keeps_getSession _))
        · exact hs.keeps (.of_tasks rfl fun _ => id)
    · cases h
  | rpcMessage t =>
    simp only [Cluster.step] at h
    split at h
    · cases h
      exact hs.keeps (keeps_close t _)
    · cases h
      exact hs.keeps (.of_tasks rfl fun _ => id)
    · cases h
  | close t =>
    simp only [Cluster.step] at h
    split at h
    · split_ifs at h
      cases h
      exact hs.keeps (keeps_close t _)
    · cases h
  | keepAliveFailed m =>
    simp only [Cluster.step] at h
    split_ifs at h
    obtain ⟨x, hx, rfl⟩ := Option.map_eq_some_iff.1 h
    exact hs.keeps (keeps_keepAliveFailed hx)
  | stepTimeout =>
    cases h
    exact hs.keeps (.of_tasks rfl fun _ => id)
  | expire m =>
    simp only [Cluster.step] at h
    split_ifs at h
    cases h
    exact hs.keeps (keeps_setNode (fun _ => nofun) (fun _ => id) fun _ => id)

/-! ## The transports of a session -/

/-- A transport that a session is bound to is open, and its own. -/
def Tied (s : Cluster) : Prop := ∀ (n : ℕ) (x : Node), s.nodes[n]? = some x → ∀ i ∈ x.binds,
  ∃ y, s.transports[i]? = some y ∧ y.session = some n ∧ y.state ≠ .closed

/-- The transport that the task is in `init_message` of. -/
def transportOf : Task → Option ℕ
  | .search _ (.rebind i _) | .got _ _ (.rebind i _) | .setRole _ _ i _ | .setAddr _ _ i _ => some i
  | .search _ .session | .search _ .node | .got _ _ .session | .got _ _ .node | .asyncConnect _ _
  | .connecting _ _ | .increment _ | .transportLost _ | .reconnect _ | .forceLost _ _ | .lostNode _
  | .newNode _ _ _ => none

/-- So many tasks are in `init_message` of the transport. -/
def initializers (s : Cluster) (i : ℕ) : ℕ := s.tasks.countP fun y => transportOf y = some i

def initializing (s : Cluster) (i : ℕ) : Bool :=
  (s.transports[i]?).any fun y => y.state == .initializing

/-- One thread is in `init_message` of a transport that is initialized, and none of another. -/
def Busy (s : Cluster) : Prop := ∀ i, s.initializers i = (s.initializing i).toNat

@[simp] theorem setTransport_getElem? (s : Cluster) (i : ℕ) (f : Transport → Transport) (j : ℕ) :
    (s.setTransport i f).transports[j]? =
      if i = j then s.transports[j]?.map f else s.transports[j]? := by
  rw [setTransport, List.getElem?_modify]
  split_ifs <;> cases s.transports[j]? <;> rfl

/-- Transports may go from the sessions, and stay open. -/
structure Holds (s t : Cluster) : Prop where
  binds : ∀ (n : ℕ) (y : Node), t.nodes[n]? = some y → ∀ i ∈ y.binds,
    ∃ x, s.nodes[n]? = some x ∧ i ∈ x.binds
  transports : ∀ (i : ℕ) (y : Transport), s.transports[i]? = some y → y.state ≠ .closed →
    ∃ z, t.transports[i]? = some z ∧ z.session = y.session ∧ z.state ≠ .closed

theorem Holds.refl (s : Cluster) : Holds s s :=
  ⟨fun _ y hy _ hi => ⟨y, hy, hi⟩, fun _ y hy hopen => ⟨y, hy, rfl, hopen⟩⟩

theorem Holds.trans (h : Holds s t) (h' : Holds t u) : Holds s u := by
  refine ⟨fun n z hz i hi => ?_, fun i x hx hopen => ?_⟩
  · obtain ⟨y, hy, hi⟩ := h'.binds n z hz i hi
    exact h.binds n y hy i hi
  · obtain ⟨y, hy, hxy, hopen⟩ := h.transports i x hx hopen
    obtain ⟨z, hz, hyz, hopen⟩ := h'.transports i y hy hopen
    exact ⟨z, hz, hyz.trans hxy, hopen⟩

theorem Holds.of_eq (hn : t.nodes = s.nodes) (ht : t.transports = s.transports) : Holds s t :=
  ⟨fun _ y hy _ hi => ⟨y, hn ▸ hy, hi⟩, fun _ y hy hopen => ⟨y, ht ▸ hy, rfl, hopen⟩⟩

theorem holds_setNode {f : Node → Node} (hf : ∀ x, ∀ i ∈ (f x).binds, i ∈ x.binds) :
    Holds s (s.setNode n f) := by
  refine ⟨fun m y hy i hi => ?_, fun _ y hy hopen => ⟨y, hy, rfl, hopen⟩⟩
  rw [setNode_getElem?] at hy
  split_ifs at hy
  · obtain ⟨x, hx, rfl⟩ := Option.map_eq_some_iff.1 hy
    exact ⟨x, hx, hf x i hi⟩
  · exact ⟨y, hy, hi⟩

theorem holds_setState {i : ℕ} {state : ProcessState} (hs : state ≠ .closed) :
    Holds s (s.setState i state) := by
  refine ⟨fun _ y hy _ hj => ⟨y, hy, hj⟩, fun j y hy hopen => ?_⟩
  rw [setState, setTransport_getElem?, hy]
  split_ifs
  · exact ⟨_, rfl, rfl, hs⟩
  · exact ⟨y, rfl, rfl, hopen⟩

theorem holds_unbind (i : ℕ) : Holds s (s.unbind n i) := by
  have h : Holds s (s.setNode n fun x => { x with binds := x.binds.filter (· != i) }) :=
    holds_setNode fun _ _ hj => List.mem_of_mem_filter hj
  unfold unbind
  simp only []
  split_ifs
  · exact h.trans (.of_eq rfl rfl)
  · exact h

theorem unbind_binds {i : ℕ} (hx : (s.unbind n i).nodes[n]? = some x) : i ∉ x.binds := by
  have hnodes : (s.unbind n i).nodes =
      (s.setNode n fun x => { x with binds := x.binds.filter (· != i) }).nodes := by
    simp only [unbind]
    split_ifs <;> rfl
  rw [hnodes, setNode_getElem?, if_pos rfl] at hx
  obtain ⟨y, -, rfl⟩ := Option.map_eq_some_iff.1 hx
  simp

theorem unbind_transports (i : ℕ) : (s.unbind n i).transports = s.transports := by
  simp only [unbind]
  split_ifs <;> rfl

theorem holds_getSession (use : Use) : Holds s (s.getSession addr use) := by
  unfold getSession
  split <;> exact .of_eq rfl rfl

theorem holds_search (use : Use) : Holds s (s.search addr use) := by
  have hcreate : Holds s (s.create addr) := by
    refine ⟨fun m y hy i hi => ⟨y, ?_, hi⟩, fun _ y hy hopen => ⟨y, hy, rfl, hopen⟩⟩
    have hy' : (s.nodes ++ [Node.new addr])[m]? = some y := hy
    rw [List.getElem?_append] at hy'
    split_ifs at hy' with hm
    · exact hy'
    · rw [List.getElem?_singleton] at hy'
      split_ifs at hy'
      cases hy'
      cases hi
  unfold search
  split
  · exact .of_eq rfl rfl
  · simp only []
    split_ifs <;> exact hcreate.trans (.of_eq rfl rfl)

theorem holds_transportLost : Holds s (s.transportLost limit n x) := by
  unfold transportLost
  split_ifs <;> exact .of_eq rfl rfl

theorem holds_reconnect : Holds s (s.reconnect n x) := by
  unfold reconnect
  split_ifs <;> exact .of_eq rfl rfl

theorem holds_forceLost {gaveUp : Bool} : Holds s (s.forceLost n gaveUp) := by
  have h : Holds s (s.setNode n fun x => { x with lost := true }) :=
    holds_setNode fun _ _ => id
  unfold forceLost
  simp only []
  split_ifs
  · exact h.trans (.of_eq rfl rfl)
  · exact h

theorem holds_lostNode : Holds s (s.lostNode n x) := by
  unfold lostNode
  split <;> exact .of_eq rfl rfl

theorem holds_setRole {i : ℕ} {role : UInt8} : Holds s (s.setRole addr n i role x) := by
  unfold setRole
  split
  · exact holds_setState (by decide)
  · have h : Holds s (s.setNode n fun x => { x with role := some role }) :=
      holds_setNode fun _ _ => id
    exact h.trans (.of_eq rfl rfl)

theorem holds_setAddr {i : ℕ} {role : UInt8} : Holds s (s.setAddr addr n i role) := by
  have hstate : Holds s (s.setState i .cluster) := holds_setState (by decide)
  have h : Holds (s.setState i .cluster)
      ((s.setState i .cluster).setNode n fun x => { x with addr := addr }) :=
    holds_setNode fun _ _ => id
  exact hstate.trans (h.trans (.of_eq rfl rfl))

theorem holds_keepAliveFailed : Holds s (s.keepAliveFailed n x) := by
  have h : Holds s (s.setNode n fun x =>
      { x with connectRetriedCount := x.connectRetriedCount + 1 }) :=
    holds_setNode fun _ _ => id
  have h' : ∀ {u : Cluster}, Holds u (u.setNode n fun x => { x with binds := [] }) :=
    holds_setNode fun _ _ => nofun
  unfold keepAliveFailed shutdown
  simp only []
  split_ifs
  · exact h.trans h'
  · exact h.trans (h'.trans (.of_eq rfl rfl))
  · exact h

theorem Tied.holds (hs : Tied s) (h : Holds s t) : Tied t := by
  intro n y hy i hi
  obtain ⟨x, hx, hi⟩ := h.binds n y hy i hi
  obtain ⟨z, hz, hzn, hopen⟩ := hs n x hx i hi
  obtain ⟨w, hw, hwz, hopen⟩ := h.transports i z hz hopen
  exact ⟨w, hw, hwz.trans hzn, hopen⟩

/-- A transport is bound that no session is bound to. -/
theorem Tied.bind (hs : Tied s) {i : ℕ} {y : Transport} (hnodes : u.nodes = s.nodes)
    (hfree : ∀ (m : ℕ) (x : Node), s.nodes[m]? = some x → i ∉ x.binds)
    (hu : ∀ j z, j ≠ i → s.transports[j]? = some z → u.transports[j]? = some z)
    (hi : u.transports[i]? = some y) (hy : y.session = some n) (hopen : y.state ≠ .closed) :
    Tied (u.bind n i) := by
  have hother : ∀ (m : ℕ) (x : Node), s.nodes[m]? = some x → ∀ j ∈ x.binds,
      ∃ z, u.transports[j]? = some z ∧ z.session = some m ∧ z.state ≠ .closed := by
    intro m x hx j hj
    obtain ⟨z, hz, hzm, hz'⟩ := hs m x hx j hj
    exact ⟨z, hu j z (fun hji => hfree m x hx (hji ▸ hj)) hz, hzm, hz'⟩
  intro m x hx j hj
  rw [Cluster.bind, setNode_getElem?, hnodes] at hx
  split_ifs at hx with hm
  · obtain ⟨x', hx', rfl⟩ := Option.map_eq_some_iff.1 hx
    obtain hj | hj := List.mem_append.1 hj
    · exact hother m x' hx' j hj
    · obtain rfl := List.mem_singleton.1 hj
      exact ⟨y, hi, hm ▸ hy, hopen⟩
  · exact hother m x hx j hj

theorem Tied.rebind (hs : Tied s) {i : ℕ} {y : Transport} (hi : s.transports[i]? = some y)
    (hopen : y.state ≠ .closed) : Tied (s.rebind n i) := by
  have hbind : ∀ u : Cluster, Tied u → u.transports = s.transports →
      (∀ (m : ℕ) (x : Node), u.nodes[m]? = some x → i ∉ x.binds) →
      Tied ((u.setTransport i fun x => { x with session := some n }).bind n i) := by
    intro u hu ht hfree
    refine hu.bind (y := { y with session := some n }) rfl hfree (fun j z hj hz => ?_) ?_ rfl hopen
    · rw [setTransport_getElem?, if_neg (Ne.symm hj), hz]
    · rw [setTransport_getElem?, if_pos rfl, ht, hi]
      rfl
  have howner : ∀ (m : ℕ) (x : Node), s.nodes[m]? = some x → i ∈ x.binds → y.session = some m := by
    intro m x hx hm
    obtain ⟨z, hz, hzm, -⟩ := hs m x hx i hm
    rw [hi] at hz
    cases hz
    exact hzm
  unfold Cluster.rebind
  rw [hi]
  simp only [Option.bind_some]
  split
  · rename_i m hm
    refine hbind _ (hs.holds (holds_unbind i)) (unbind_transports i) fun k x hx hxi => ?_
    obtain ⟨z, hz, hzi⟩ := (holds_unbind i).binds k x hx i hxi
    have hkm : k = m := by
      have := howner k z hz hzi
      rw [hm] at this
      exact (Option.some.inj this).symm
    subst hkm
    exact unbind_binds hx hxi
  · rename_i hnone
    refine hbind s hs rfl fun m x hx hxi => ?_
    rw [hnone] at howner
    exact absurd (howner m x hx hxi) (by simp)

theorem Tied.close (hs : Tied s) {i : ℕ} {y : Transport} (hi : s.transports[i]? = some y) :
    Tied (s.close i y.session) := by
  -- no session but that of the transport is bound to it
  have hopen : ∀ (m : ℕ) (x : Node), s.nodes[m]? = some x → ∀ j ∈ x.binds,
      (i = j → y.session ≠ some m) → ∃ z, (s.setState i .closed).transports[j]? = some z ∧
        z.session = some m ∧ z.state ≠ .closed := by
    intro m x hx j hj hij
    obtain ⟨z, hz, hzm, hz'⟩ := hs m x hx j hj
    by_cases hi' : i = j
    · subst hi'
      rw [hi] at hz
      cases hz
      exact absurd hzm (hij rfl)
    · exact ⟨z, by rw [setState, setTransport_getElem?, if_neg hi', hz], hzm, hz'⟩
  unfold Cluster.close
  split
  · rename_i m hm
    intro k x hx j hj
    rw [unbind_transports]
    obtain ⟨z, hz, hzj⟩ := (holds_unbind (s := s.setState i .closed) i).binds k x hx j hj
    refine hopen k z hz j hzj fun hij hk => ?_
    rw [hm] at hk
    cases hk
    subst hij
    exact unbind_binds hx hj
  · rename_i hm
    exact fun k x hx j hj => hopen k x hx j hj fun _ hk => by simp [hm] at hk

/-! ## In `init_message` -/

theorem initializers_add (task : Task) (i : ℕ) :
    (s.add task).initializers i =
      s.initializers i + if transportOf task = some i then 1 else 0 := by
  simp [initializers, add, List.countP_append, List.countP_singleton]

theorem initializers_drop (hk : s.tasks[k]? = some task) (i : ℕ) :
    (s.drop k).initializers i + (if transportOf task = some i then 1 else 0) =
      s.initializers i := by
  have := Counting.countP_eraseIdx (p := fun y => decide (transportOf y = some i)) hk
  unfold initializers
  rw [← this]
  split_ifs with h <;> simp [drop, h]

theorem initializing_setState {i : ℕ} {state : ProcessState} {y : Transport}
    (hi : s.transports[i]? = some y) (j : ℕ) :
    (s.setState i state).initializing j =
      if i = j then state == .initializing else s.initializing j := by
  unfold initializing
  rw [setState, setTransport_getElem?]
  split_ifs with hij
  · rw [← hij, hi]
    rfl
  · rfl

/-- Nothing goes into `init_message` or leaves it. -/
structure Idles (s t : Cluster) : Prop where
  initializers : ∀ i, t.initializers i = s.initializers i
  initializing : ∀ i, t.initializing i = s.initializing i

theorem Idles.of_eq (ht : t.tasks = s.tasks) (hr : t.transports = s.transports) : Idles s t :=
  ⟨fun i => by rw [Cluster.initializers, ht]; rfl, fun i => by rw [Cluster.initializing, hr]; rfl⟩

theorem Idles.trans (h : Idles s t) (h' : Idles t u) : Idles s u :=
  ⟨fun i => (h'.initializers i).trans (h.initializers i),
    fun i => (h'.initializing i).trans (h.initializing i)⟩

theorem Busy.idles (hs : Busy s) (h : Idles s t) : Busy t := by
  intro i
  rw [h.initializers, h.initializing]
  exact hs i

theorem Idles.add (hu : Idles s u) (h : transportOf task = none) : Idles s (u.add task) := by
  refine ⟨fun i => ?_, hu.initializing⟩
  rw [initializers_add, hu.initializers, h]
  simp

theorem idles_add (h : transportOf task = none) : Idles s (s.add task) :=
  .add (.of_eq rfl rfl) h

theorem idles_unbind (i : ℕ) : Idles s (s.unbind n i) := by
  unfold unbind
  simp only []
  split_ifs
  · exact Idles.add (.of_eq rfl rfl) rfl
  · exact .of_eq rfl rfl

theorem idles_setSession (i n : ℕ) :
    Idles s (s.setTransport i fun x => { x with session := some n }) := by
  refine ⟨fun _ => rfl, fun j => ?_⟩
  unfold initializing
  rw [setTransport_getElem?]
  split_ifs
  · cases s.transports[j]? <;> rfl
  · rfl

theorem idles_rebind (i : ℕ) : Idles s (s.rebind n i) := by
  have h : ∀ u : Cluster,
      Idles u ((u.setTransport i fun x => { x with session := some n }).bind n i) :=
    fun u => (idles_setSession i n).trans (.of_eq rfl rfl)
  unfold rebind
  simp only []
  split
  · exact (idles_unbind i).trans (h _)
  · exact h s

theorem idles_setState {i : ℕ} {y : Transport} {state : ProcessState}
    (hi : s.transports[i]? = some y) (hy : y.state ≠ .initializing) (hs : state ≠ .initializing) :
    Idles s (s.setState i state) := by
  refine ⟨fun _ => rfl, fun j => ?_⟩
  rw [initializing_setState hi]
  split_ifs with hij
  · rw [← hij, initializing, hi]
    simp [hs, hy]
  · rfl

theorem idles_close {i : ℕ} {y : Transport} (hi : s.transports[i]? = some y)
    (hy : y.state ≠ .initializing) (session : Option ℕ) : Idles s (s.close i session) := by
  have h : Idles s (s.setState i .closed) := idles_setState hi hy (by decide)
  cases session with
  | none => exact h
  | some m => exact h.trans (idles_unbind i)

theorem idles_transportLost : Idles s (s.transportLost limit n x) := by
  unfold transportLost
  split_ifs <;> exact idles_add rfl

theorem idles_reconnect : Idles s (s.reconnect n x) := by
  unfold reconnect
  split_ifs <;> exact idles_add rfl

theorem idles_forceLost {gaveUp : Bool} : Idles s (s.forceLost n gaveUp) := by
  unfold forceLost
  simp only []
  split_ifs
  · exact Idles.add (.of_eq rfl rfl) rfl
  · exact .of_eq rfl rfl

theorem idles_lostNode : Idles s (s.lostNode n x) := by
  unfold lostNode
  split <;> exact .of_eq rfl rfl

theorem idles_keepAliveFailed : Idles s (s.keepAliveFailed n x) := by
  unfold keepAliveFailed shutdown
  simp only []
  split_ifs
  · exact .of_eq rfl rfl
  · exact Idles.add (.of_eq rfl rfl) rfl
  · exact .of_eq rfl rfl

/-- A task that is for no transport is over. -/
theorem idles_drop (hk : s.tasks[k]? = some task) (h : transportOf task = none) :
    Idles s (s.drop k) := by
  refine ⟨fun i => ?_, fun _ => rfl⟩
  have := initializers_drop hk i
  simpa [h] using this

/-- Another task takes over the transport. -/
theorem idles_next {next : Task} (hk : s.tasks[k]? = some task)
    (h : transportOf next = transportOf task) (hu : Idles (s.drop k) u) : Idles s (u.add next) := by
  refine ⟨fun i => ?_, fun i => hu.initializing i⟩
  rw [initializers_add, hu.initializers, h, initializers_drop hk]

theorem transportOf_got (addr : Address) (n : ℕ) (use : Use) :
    transportOf (.got addr n use) = transportOf (.search addr use) := by
  cases use <;> rfl

theorem getSession_eq (s : Cluster) (addr : Address) (use : Use) : ∃ task,
    s.getSession addr use = s.add task ∧ transportOf task = transportOf (.search addr use) := by
  unfold getSession
  split
  · exact ⟨_, rfl, transportOf_got ..⟩
  · exact ⟨_, rfl, rfl⟩

theorem search_eq (s : Cluster) (addr : Address) (use : Use) : ∃ u n,
    s.search addr use = u.add (.got addr n use) ∧ Idles s u := by
  unfold search
  split
  · exact ⟨_, _, rfl, .of_eq rfl rfl⟩
  · refine ⟨_, _, rfl, ?_⟩
    split_ifs
    · exact Idles.add (.of_eq rfl rfl) rfl
    · exact .of_eq rfl rfl

/-- The transport of a task is in `init_message`. -/
theorem Busy.initializing (hs : Busy s) (hk : s.tasks[k]? = some task) {i : ℕ}
    (h : transportOf task = some i) : ∃ y, s.transports[i]? = some y ∧ y.state = .initializing := by
  have hcount := initializers_drop hk i
  have hbusy := hs i
  rw [if_pos h] at hcount
  cases hi : s.transports[i]? with
  | none =>
    rw [Cluster.initializing, hi] at hbusy
    simp only [Option.any_none, Bool.toNat_false] at hbusy
    omega
  | some y =>
    refine ⟨y, rfl, ?_⟩
    by_contra hy
    rw [Cluster.initializing, hi] at hbusy
    simp only [Option.any_some, beq_eq_false_iff_ne.2 hy, Bool.toNat_false] at hbusy
    omega

theorem Busy.leave (hs : Busy s) (hk : s.tasks[k]? = some task) {i : ℕ} {state : ProcessState}
    (h : transportOf task = some i) (hstate : state ≠ .initializing) :
    Busy ((s.drop k).setState i state) := by
  obtain ⟨y, hi, hy⟩ := hs.initializing hk h
  intro j
  have hcount := initializers_drop hk j
  have hbusy := hs j
  rw [initializing_setState (s := s.drop k) hi]
  have hsame : ((s.drop k).setState i state).initializers j = (s.drop k).initializers j := rfl
  rw [hsame]
  by_cases hij : i = j
  · subst hij
    have hle := Bool.toNat_le (s.initializing i)
    rw [if_pos h] at hcount
    rw [if_pos rfl, beq_eq_false_iff_ne.2 hstate, Bool.toNat_false]
    omega
  · rw [if_neg (by rw [h]; simpa using hij), Nat.add_zero] at hcount
    rw [if_neg hij, hcount, hbusy]
    rfl

theorem Busy.enter (hs : Busy s) {i : ℕ} {y : Transport} (hi : s.transports[i]? = some y)
    (hy : y.state = .initial) (h : transportOf task = some i) :
    Busy ((s.setState i .initializing).add task) := by
  intro j
  have hbusy := hs j
  rw [initializers_add]
  show s.initializers j + _ = ((s.setState i .initializing).initializing j).toNat
  rw [initializing_setState hi, h]
  by_cases hij : i = j
  · subst hij
    rw [Cluster.initializing, hi] at hbusy
    simp [hbusy, hy]
  · simpa [hij] using hbusy

theorem Busy.run (hs : Busy s) (hk : s.tasks[k]? = some task)
    (h : (s.drop k).run limit task = some t) : Busy t := by
  cases task with
  | search addr use =>
    cases h
    obtain ⟨u, n, he, hu⟩ := search_eq (s.drop k) addr use
    rw [he]
    exact hs.idles (idles_next hk (transportOf_got ..) hu)
  | got addr n use =>
    cases h
    cases use with
    | session => exact hs.idles (idles_drop hk rfl)
    | node => exact hs.idles ((idles_drop hk rfl).trans (.of_eq rfl rfl))
    | rebind i role => exact hs.idles (idles_next hk rfl (idles_rebind i))
  | asyncConnect addr n =>
    obtain ⟨x, -, rfl⟩ := Option.map_eq_some_iff.1 h
    unfold asyncConnect
    split_ifs
    · exact hs.idles (idles_drop hk rfl)
    · exact hs.idles ((idles_drop hk rfl).trans ((idles_add rfl).trans (idles_add rfl)))
  | connecting addr n => cases h
  | increment n =>
    cases h
    exact hs.idles ((idles_drop hk rfl).trans (.of_eq rfl rfl))
  | transportLost n =>
    obtain ⟨x, -, rfl⟩ := Option.map_eq_some_iff.1 h
    exact hs.idles ((idles_drop hk rfl).trans idles_transportLost)
  | reconnect n =>
    obtain ⟨x, -, rfl⟩ := Option.map_eq_some_iff.1 h
    exact hs.idles ((idles_drop hk rfl).trans idles_reconnect)
  | forceLost n gaveUp =>
    obtain ⟨x, -, rfl⟩ := Option.map_eq_some_iff.1 h
    exact hs.idles ((idles_drop hk rfl).trans idles_forceLost)
  | lostNode n =>
    obtain ⟨x, -, rfl⟩ := Option.map_eq_some_iff.1 h
    exact hs.idles ((idles_drop hk rfl).trans idles_lostNode)
  | setRole addr n i role =>
    obtain ⟨x, -, rfl⟩ := Option.map_eq_some_iff.1 h
    unfold setRole
    split
    · exact hs.leave hk rfl (by decide)
    · exact hs.idles (idles_next hk rfl (.of_eq rfl rfl))
  | setAddr addr n i role =>
    cases h
    have hleave : Busy ((s.drop k).setState i .cluster) := hs.leave hk rfl (by decide)
    exact hleave.idles (Idles.add (.of_eq rfl rfl) rfl)
  | newNode addr n role =>
    cases h
    exact hs.idles ((idles_drop hk rfl).trans (.of_eq rfl rfl))

theorem tied_run (hs : Tied s) (hb : Busy s) (hk : s.tasks[k]? = some task)
    (h : (s.drop k).run limit task = some t) : Tied t := by
  have hdrop : Tied (s.drop k) := hs.holds (.of_eq rfl rfl)
  cases task with
  | search addr use =>
    cases h
    exact hdrop.holds (holds_search use)
  | got addr n use =>
    cases h
    cases use with
    | session => exact hdrop
    | node =>
      refine hdrop.holds (holds_setNode fun x i hi => ?_)
      split_ifs at hi <;> exact hi
    | rebind i role =>
      obtain ⟨y, hi, hy⟩ := hb.initializing hk (i := i) rfl
      exact (hdrop.rebind hi (by rw [hy]; decide)).holds (.of_eq rfl rfl)
  | asyncConnect addr n =>
    obtain ⟨x, -, rfl⟩ := Option.map_eq_some_iff.1 h
    unfold asyncConnect
    split_ifs <;> exact hdrop.holds (.of_eq rfl rfl)
  | connecting addr n => cases h
  | increment n =>
    cases h
    exact hdrop.holds (holds_setNode fun _ _ => id)
  | transportLost n =>
    obtain ⟨x, -, rfl⟩ := Option.map_eq_some_iff.1 h
    exact hdrop.holds holds_transportLost
  | reconnect n =>
    obtain ⟨x, -, rfl⟩ := Option.map_eq_some_iff.1 h
    exact hdrop.holds holds_reconnect
  | forceLost n gaveUp =>
    obtain ⟨x, -, rfl⟩ := Option.map_eq_some_iff.1 h
    exact hdrop.holds holds_forceLost
  | lostNode n =>
    obtain ⟨x, -, rfl⟩ := Option.map_eq_some_iff.1 h
    exact hdrop.holds holds_lostNode
  | setRole addr n i role =>
    obtain ⟨x, -, rfl⟩ := Option.map_eq_some_iff.1 h
    exact hdrop.holds holds_setRole
  | setAddr addr n i role =>
    cases h
    exact hdrop.holds holds_setAddr
  | newNode addr n role =>
    cases h
    exact hdrop.holds (.of_eq rfl rfl)

/-- What a new transport is to the others. -/
theorem append_getElem? {y z : Transport} {j : ℕ} (h : s.transports[j]? = some z) :
    (s.transports ++ [y])[j]? = some z := by
  rw [List.getElem?_append_left (List.getElem?_eq_some_iff.1 h).1, h]

theorem Busy.append (hs : Busy s) {session : Option ℕ} :
    Busy { s with transports := s.transports ++ [Transport.mk .initial session] } := by
  intro i
  refine (hs i).trans (congrArg Bool.toNat ?_)
  unfold Cluster.initializing
  simp only [List.getElem?_append]
  split_ifs with hi
  · rfl
  · rw [List.getElem?_eq_none (by omega), List.getElem?_singleton]
    split_ifs <;> rfl

theorem Busy.connected (hs : Busy s) : Busy (s.connected n) := by
  have happend : Busy { s with transports := s.transports ++ [Transport.mk .initial (some n)] } :=
    hs.append
  have hbind : Idles { s with transports := s.transports ++ [Transport.mk .initial (some n)] }
      (s.connected n) := .of_eq rfl rfl
  exact happend.idles hbind

theorem Tied.connected (hs : Tied s) : Tied (s.connected n) := by
  refine hs.bind (i := s.transports.length) (y := ⟨.initial, some n⟩) rfl (fun m x hx hi => ?_)
    (fun j z _ hz => append_getElem? hz) ?_ rfl (by simp)
  · obtain ⟨z, hz, -⟩ := hs m x hx _ hi
    simp at hz
  · simp

theorem step_tied (hs : Tied s) (hb : Busy s) (h : s.step limit a = some t) :
    Tied t ∧ Busy t := by
  cases a with
  | getSession addr node =>
    cases h
    obtain ⟨task, he, htask⟩ := getSession_eq s addr (if node then .node else .session)
    refine ⟨hs.holds (holds_getSession _), ?_⟩
    rw [he]
    exact hb.idles (idles_add (by cases node <;> exact htask))
  | run k =>
    obtain ⟨task, hk, h⟩ := Option.bind_eq_some_iff.1 h
    exact ⟨tied_run hs hb hk h, hb.run hk h⟩
  | connected k =>
    simp only [step] at h
    split at h
    · rename_i addr n hk
      cases h
      exact ⟨Tied.connected (hs.holds (.of_eq rfl rfl)),
        Busy.connected (hb.idles (idles_drop hk rfl))⟩
    · cases h
  | connectFailed k =>
    simp only [step] at h
    split at h
    · rename_i addr n hk
      obtain ⟨x, -, rfl⟩ := Option.map_eq_some_iff.1 h
      unfold connectFailed
      split_ifs <;>
        exact ⟨hs.holds (.of_eq rfl rfl), hb.idles ((idles_drop hk rfl).trans (idles_add rfl))⟩
    · cases h
  | accepted =>
    cases h
    refine ⟨hs.holds ⟨fun _ y hy _ hi => ⟨y, hy, hi⟩, fun i y hy hopen => ?_⟩, hb.append⟩
    exact ⟨y, append_getElem? hy, rfl, hopen⟩
  | initMessage i addr role =>
    simp only [step] at h
    split at h
    · rename_i session hi
      cases h
      have hstate : Tied (s.setState i .initializing) := hs.holds (holds_setState (by decide))
      cases session with
      | some n => exact ⟨hstate.holds (.of_eq rfl rfl), hb.enter hi rfl rfl⟩
      | none =>
        simp only [initMessage]
        split_ifs
        · obtain ⟨task, he, htask⟩ := getSession_eq (s.setState i .initializing) addr
            (.rebind i role)
          exact ⟨hstate.holds (holds_getSession _), he ▸ hb.enter hi rfl htask⟩
        · exact ⟨hs.close hi, hb.idles (idles_close hi nofun none)⟩
    · cases h
  | rpcMessage i =>
    simp only [step] at h
    split at h
    · rename_i n hi
      cases h
      exact ⟨hs.close hi, hb.idles (idles_close hi nofun _)⟩
    · rename_i hi
      cases h
      exact ⟨hs.holds (holds_setState (by decide)),
        hb.idles (idles_setState hi nofun nofun)⟩
    · cases h
  | close i =>
    simp only [step] at h
    split at h
    · rename_i y hi
      split_ifs at h with hopen
      cases h
      exact ⟨hs.close hi, hb.idles (idles_close hi (fun hy => hopen (.inl hy)) _)⟩
    · cases h
  | keepAliveFailed n =>
    simp only [step] at h
    split_ifs at h
    obtain ⟨x, -, rfl⟩ := Option.map_eq_some_iff.1 h
    exact ⟨hs.holds holds_keepAliveFailed, hb.idles idles_keepAliveFailed⟩
  | stepTimeout =>
    cases h
    exact ⟨hs.holds (.of_eq rfl rfl), hb.idles (.of_eq rfl rfl)⟩
  | expire n =>
    simp only [step] at h
    split_ifs at h
    cases h
    exact ⟨hs.holds (holds_setNode fun _ _ => id), hb.idles (.of_eq rfl rfl)⟩

theorem run_tied (h : Run (step limit) Free init as s) : Tied s :=
  (h.inv (I := fun s => Tied s ∧ Busy s) (fun _ _ _ hs _ hst => step_tied hs.1 hs.2 hst)
    ⟨nofun, fun _ => rfl⟩).1

theorem run_settled (h : Run (step limit) Free init as s) (n : ℕ) : Settled s n :=
  h.inv (I := fun s => Settled s n) (fun _ _ _ hs _ hst => hs.step hst) nofun

/-- A session that can be used has an open transport of its own, or something is under way that
binds it to one, connects it or gives it up: no call for it waits for nothing. -/
theorem open_or_led (h : Run (step limit) Free init as s) (hn : s.usable n = true) :
    (∃ (x : Node) (i : ℕ) (y : Transport), s.nodes[n]? = some x ∧ i ∈ x.binds ∧
      s.transports[i]? = some y ∧ y.session = some n ∧ y.state ≠ .closed) ∨
    ∃ task ∈ s.tasks, leadsTo n task = true := by
  obtain ⟨x, hx, hb⟩ | hled := run_settled h n hn
  · obtain ⟨i, hi⟩ := List.exists_mem_of_ne_nil x.binds hb
    obtain ⟨y, hy⟩ := run_tied h n x hx i hi
    exact .inl ⟨x, i, y, hx, hi, hy⟩
  · exact .inr hled

/-- The server is connected. -/
def met : List Act := race ++ [.run 0, .connected 2]

theorem open_or_led_met : ∃ s, Run (step 0) Free init met s ∧
    ((∃ (x : Node) (i : ℕ) (y : Transport), s.nodes[0]? = some x ∧ i ∈ x.binds ∧
      s.transports[i]? = some y ∧ y.session = some 0 ∧ y.state ≠ .closed) ∨
    ∃ task ∈ s.tasks, leadsTo 0 task = true) :=
  have hrun : Run (step 0) Free init met _ := Machine.exec_run rfl
  ⟨_, hrun, open_or_led hrun rfl⟩

end Cluster

end Kumofs.Rpc
