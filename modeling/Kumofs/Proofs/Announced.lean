import Kumofs.Proofs.Nodes

/-!
# The nodes that are told of

`new_node` is called once for a node whose role is set, with the role that it has from then on, and
`lost_node` only for nodes that have a role and are lost; but nothing makes it wait for `new_node`.
If every server says the address that it was connected by, then `for_each_node` comes to each
address that has a node once, save while a node has its role and not yet its address.
-/

namespace Kumofs.Rpc

open Machine (Run Free)

namespace Cluster

variable {limit : UInt16} {s t u : Cluster} {a : Act} {as : List Act} {addr : Address}
  {n m i k : ℕ} {x y : Node} {task : Task} {role : UInt8}

/-! ## What a step tells -/

/-- The session of a task and what it is called. -/
def naming : Task → Option (Address × ℕ)
  | .got addr n _ | .setRole addr n _ _ | .setAddr addr n _ _ => some (addr, n)
  | .search _ _ | .asyncConnect _ _ | .connecting _ _ | .increment _ | .transportLost _
  | .reconnect _ | .forceLost _ _ | .lostNode _ | .newNode _ _ _ => none

/-- The node that the task is going to call `new_node` for, and its role. -/
def announced : Task → Option (ℕ × UInt8)
  | .setAddr _ n _ role | .newNode _ n role => some (n, role)
  | .search _ _ | .got _ _ _ | .asyncConnect _ _ | .connecting _ _ | .increment _
  | .transportLost _ | .reconnect _ | .forceLost _ _ | .lostNode _ | .setRole _ _ _ _ => none

/-- The task is going to tell of a node. -/
def telling : Task → Bool
  | .setAddr _ _ _ _ | .newNode _ _ _ | .lostNode _ => true
  | .search _ _ | .got _ _ _ | .asyncConnect _ _ | .connecting _ _ | .increment _
  | .transportLost _ | .reconnect _ | .forceLost _ _ | .setRole _ _ _ _ => false

/-- The calls of `new_node` for a node that are to come. -/
def coming (s : Cluster) (n : ℕ) : ℕ :=
  s.tasks.countP fun task => (announced task).map Prod.fst = some n

/-- Something calls a session so. -/
def Names (s : Cluster) (p : Address × ℕ) : Prop :=
  p ∈ s.sessions ∨ ∃ task ∈ s.tasks, naming task = some p

/-- No node comes, or gets an address or a role, none is told of or is going to be, and none is
called what it was not. -/
structure Quiet (s t : Cluster) : Prop where
  newNodes : t.newNodes = s.newNodes
  lostNodes : t.lostNodes = s.lostNodes
  tellings : t.tasks.filter telling = s.tasks.filter telling
  nodes : ∀ (n : ℕ) (y : Node), t.nodes[n]? = some y →
    ∃ x, s.nodes[n]? = some x ∧ Evolves x y ∧ y.role = x.role ∧ y.addr = x.addr
  length : t.nodes.length = s.nodes.length
  names : ∀ p, Names t p → Names s p

theorem Quiet.of_eq (hn : t.nodes = s.nodes) (hnew : t.newNodes = s.newNodes)
    (hlost : t.lostNodes = s.lostNodes) (ht : t.tasks.filter telling = s.tasks.filter telling)
    (hp : ∀ p, Names t p → Names s p) : Quiet s t :=
  ⟨hnew, hlost, ht, fun _ y hy => ⟨y, hn ▸ hy, .refl y, rfl, rfl⟩, congrArg _ hn, hp⟩

theorem Quiet.refl (s : Cluster) : Quiet s s := .of_eq rfl rfl rfl rfl fun _ => id

theorem Quiet.trans (h : Quiet s t) (h' : Quiet t u) : Quiet s u := by
  refine ⟨h'.newNodes.trans h.newNodes, h'.lostNodes.trans h.lostNodes,
    h'.tellings.trans h.tellings, fun n z hz => ?_, h'.length.trans h.length,
    fun p => h.names p ∘ h'.names p⟩
  obtain ⟨y, hy, hyz, hrole, haddr⟩ := h'.nodes n z hz
  obtain ⟨x, hx, hxy, hrole', haddr'⟩ := h.nodes n y hy
  exact ⟨x, hx, hxy.trans hyz, hrole.trans hrole', haddr.trans haddr'⟩

theorem telling_of_announced {p : ℕ × UInt8} (h : announced task = some p) :
    telling task = true := by
  cases task <;> simp [announced, telling] at h ⊢

theorem Quiet.mem (h : Quiet s t) (ht : telling task = true) : task ∈ t.tasks ↔ task ∈ s.tasks := by
  have hmem : ∀ v : Cluster, task ∈ v.tasks ↔ task ∈ v.tasks.filter telling := fun v => by
    simp [ht]
  rw [hmem, h.tellings, ← hmem]

theorem Quiet.coming (h : Quiet s t) (n : ℕ) : t.coming n = s.coming n := by
  have hfilter : ∀ v : Cluster, v.coming n = (v.tasks.filter telling).countP
      fun task => (announced task).map Prod.fst = some n := by
    intro v
    rw [Cluster.coming, List.countP_filter]
    refine List.countP_congr fun task _ => ?_
    cases ha : announced task with
    | none => simp
    | some p => simp [telling_of_announced ha]
  rw [hfilter, h.tellings, ← hfilter]

theorem quiet_setNode {f : Node → Node} (hf : ∀ x, Evolves x (f x))
    (hrole : ∀ x, (f x).role = x.role) (haddr : ∀ x, (f x).addr = x.addr) :
    Quiet s (s.setNode n f) := by
  refine ⟨rfl, rfl, rfl, fun m y hy => ?_, List.length_modify .., fun _ => id⟩
  rw [setNode_getElem?] at hy
  split_ifs at hy
  · obtain ⟨x, hx, rfl⟩ := Option.map_eq_some_iff.1 hy
    exact ⟨x, hx, hf x, hrole x, haddr x⟩
  · exact ⟨y, hy, .refl y, rfl, rfl⟩

theorem quiet_transports {l : List Transport} : Quiet s { s with transports := l } :=
  .of_eq rfl rfl rfl rfl fun _ => id

theorem names_add {p : Address × ℕ} (h : Names (s.add task) p) :
    Names s p ∨ naming task = some p := by
  obtain hp | ⟨other, hother, hp⟩ := h
  · exact .inl (.inl hp)
  · obtain ho | ho := List.mem_append.1 hother
    · exact .inl (.inr ⟨other, ho, hp⟩)
    · rw [List.mem_singleton.1 ho] at hp
      exact .inr hp

theorem quiet_add (ht : telling task = false) (h : ∀ p, naming task = some p → Names s p) :
    Quiet s (s.add task) :=
  .of_eq rfl rfl rfl (by simp [add, ht]) fun p hp => (names_add hp).elim id (h p)

theorem quiet_task (ht : telling task = false) (h : naming task = none) : Quiet s (s.add task) :=
  quiet_add ht fun p hp => by simp [h] at hp

theorem names_drop {p : Address × ℕ} (h : Names (s.drop k) p) : Names s p := by
  refine h.imp_right fun ⟨task, htask, hp⟩ => ?_
  exact ⟨task, List.mem_of_mem_eraseIdx htask, hp⟩

theorem filter_eraseIdx {α : Type*} {p : α → Bool} {x : α} : ∀ {l : List α} {k : ℕ},
    l[k]? = some x → p x = false → (l.eraseIdx k).filter p = l.filter p
  | y :: l, 0, h, hp => by
    obtain rfl : y = x := by simpa using h
    simp [hp]
  | y :: l, k + 1, h, hp => by
    have ih := filter_eraseIdx (l := l) (k := k) (by simpa using h) hp
    simp only [List.eraseIdx_cons_succ, List.filter_cons, ih]

/-- A task is over that was not going to tell of a node. -/
theorem quiet_drop (hk : s.tasks[k]? = some task) (ht : telling task = false) :
    Quiet s (s.drop k) :=
  .of_eq rfl rfl rfl (filter_eraseIdx hk ht) fun _ => names_drop

/-- Another task takes over the session. -/
theorem quiet_next {next : Task} (hk : s.tasks[k]? = some task) (ht : telling task = false)
    (hn : telling next = false) (h : naming next = naming task) (hu : Quiet (s.drop k) u) :
    Quiet s (u.add next) := by
  refine ⟨hu.newNodes, hu.lostNodes, ?_, hu.nodes, hu.length, fun p hp => ?_⟩
  · rw [add, List.filter_append, hu.tellings, (quiet_drop hk ht).tellings]
    simp [hn]
  · obtain hp | hp := names_add hp
    · exact names_drop (hu.names p hp)
    · exact .inr ⟨task, List.mem_of_getElem? hk, h ▸ hp⟩

theorem quiet_sessions {l : List (Address × ℕ)} (h : l.Sublist s.sessions) :
    Quiet s { s with sessions := l } :=
  .of_eq rfl rfl rfl rfl fun _ hp => hp.imp_left fun hp => h.mem hp

theorem quiet_bind (i : ℕ) : Quiet s (s.bind n i) :=
  quiet_setNode (fun _ => ⟨rfl, id, id, fun _ => id⟩) (fun _ => rfl) fun _ => rfl

theorem quiet_unbind (i : ℕ) : Quiet s (s.unbind n i) := by
  have h : Quiet s (s.setNode n fun x => { x with binds := x.binds.filter (· != i) }) :=
    quiet_setNode (fun _ => ⟨rfl, id, id, fun _ => id⟩) (fun _ => rfl) fun _ => rfl
  unfold unbind
  simp only []
  split_ifs
  · exact h.trans (quiet_task rfl rfl)
  · exact h

theorem quiet_close (i : ℕ) (session : Option ℕ) : Quiet s (s.close i session) := by
  cases session with
  | none => exact quiet_transports
  | some n => exact quiet_transports.trans (quiet_unbind i)

theorem quiet_rebind (i : ℕ) : Quiet s (s.rebind n i) := by
  have h : ∀ u : Cluster,
      Quiet u ((u.setTransport i fun x => { x with session := some n }).bind n i) :=
    fun u => quiet_transports.trans (quiet_bind i)
  unfold rebind
  simp only []
  split
  · exact (quiet_unbind i).trans (h _)
  · exact h s

theorem quiet_getSession (use : Use) : Quiet s (s.getSession addr use) := by
  unfold getSession
  split
  · rename_i n hn
    refine quiet_add rfl fun p hp => ?_
    cases hp
    exact .inl (lookup_some hn).1
  · exact quiet_task rfl rfl

theorem quiet_keepAliveFailed : Quiet s (s.keepAliveFailed n x) := by
  have h : Quiet s (s.setNode n fun x =>
      { x with connectRetriedCount := x.connectRetriedCount + 1 }) :=
    quiet_setNode (fun _ => ⟨rfl, id, id, fun _ => id⟩) (fun _ => rfl) fun _ => rfl
  have h' : ∀ {u : Cluster}, Quiet u (u.setNode n fun x => { x with binds := [] }) :=
    quiet_setNode (fun _ => ⟨rfl, id, id, fun _ => id⟩) (fun _ => rfl) fun _ => rfl
  unfold keepAliveFailed shutdown
  simp only []
  split_ifs
  · exact h.trans h'
  · exact (h.trans h').trans (quiet_task rfl rfl)
  · exact h

theorem quiet_create (use : Use) (h : s.lookup addr = none) :
    Quiet { s with
      nodes := s.nodes ++ [Node.new addr]
      sessions := s.sessions ++ [(addr, s.nodes.length)] } (s.search addr use) := by
  have hcreate : Quiet { s with
      nodes := s.nodes ++ [Node.new addr]
      sessions := s.sessions ++ [(addr, s.nodes.length)] } (s.create addr) :=
    quiet_sessions ((sweep_sublist s addr s.sessions).append (.refl _))
  have hgot : ∀ u : Cluster, u.sessions = (s.create addr).sessions →
      Quiet u (u.add (.got addr s.nodes.length use)) := by
    refine fun u hu => quiet_add rfl fun p hp => ?_
    cases hp
    exact .inl (hu ▸ List.mem_append_right _ (List.mem_singleton_self _))
  unfold search
  rw [h]
  simp only []
  split_ifs
  · exact (hcreate.trans (quiet_task rfl rfl)).trans (hgot _ rfl)
  · exact hcreate.trans (hgot _ rfl)

/-- What an action tells of the nodes. -/
inductive Tells (s : Cluster) (a : Act) : Cluster → Prop
  | nothing : Tells s a s
  | created (addr : Address) : Tells s a
      { s with
        nodes := s.nodes ++ [Node.new addr]
        sessions := s.sessions ++ [(addr, s.nodes.length)] }
  | called {addr : Address} {n : ℕ} : Names s (addr, n) → Tells s a
      (s.setNode n fun x => if x.addr.connectable then x else { x with addr := addr })
  | forceLost {k n : ℕ} {gaveUp : Bool} {x : Node} : s.tasks[k]? = some (.forceLost n gaveUp) →
      s.nodes[n]? = some x → Tells s a ((s.drop k).forceLost n gaveUp)
  | lostNode {k n : ℕ} {x : Node} : s.tasks[k]? = some (.lostNode n) → s.nodes[n]? = some x →
      Tells s a ((s.drop k).lostNode n x)
  | setRole {k n i : ℕ} {addr : Address} {role : UInt8} {x : Node} :
      s.tasks[k]? = some (.setRole addr n i role) → s.nodes[n]? = some x → x.role = none →
      Tells s a (((s.drop k).setNode n fun x => { x with role := some role }).add
        (.setAddr addr n i role))
  | setAddr {k n i : ℕ} {addr : Address} {role : UInt8} :
      s.tasks[k]? = some (.setAddr addr n i role) → Tells s a
      (((s.drop k).setNode n fun x => { x with addr := addr }).add (.newNode addr n role))
  | newNode {k n : ℕ} {addr : Address} {role : UInt8} :
      s.tasks[k]? = some (.newNode addr n role) → Tells s a
      { s.drop k with newNodes := s.newNodes ++ [(addr, role, n)] }
  | greeted {addr : Address} {n i : ℕ} {role : UInt8} : a = .initMessage i addr role →
      s.transports[i]? = some ⟨.initial, some n⟩ → Tells s a (s.add (.setRole addr n i role))

theorem run_tells (hk : s.tasks[k]? = some task) (h : (s.drop k).run limit task = some t) :
    ∃ u, Tells s a u ∧ Quiet u t := by
  cases task with
  | search addr use =>
    cases h
    have hdrop : Quiet s (s.drop k) := quiet_drop hk rfl
    cases hl : s.lookup addr with
    | some n =>
      refine ⟨s, .nothing, hdrop.trans ?_⟩
      rw [search_some (s := s.drop k) hl]
      have hgot : Quiet (s.drop k) ((s.drop k).add (.got addr n use)) := by
        refine quiet_add rfl fun p hp => ?_
        cases hp
        exact .inl (lookup_some hl).1
      exact hgot.trans (quiet_sessions (sweep_sublist (s.drop k) addr s.sessions))
    | none =>
      -- the new node and the task that is over do not meet
      have hcreated : Quiet { s with
          nodes := s.nodes ++ [Node.new addr]
          sessions := s.sessions ++ [(addr, s.nodes.length)] } (Cluster.drop { s with
          nodes := s.nodes ++ [Node.new addr]
          sessions := s.sessions ++ [(addr, s.nodes.length)] } k) := quiet_drop hk rfl
      exact ⟨_, .created addr, hcreated.trans (quiet_create (s := s.drop k) use hl)⟩
  | got addr n use =>
    cases h
    have hdrop : Quiet s (s.drop k) := quiet_drop hk rfl
    cases use with
    | session => exact ⟨s, .nothing, hdrop⟩
    | node =>
      have hcalled : Names s (addr, n) := .inr ⟨_, List.mem_of_getElem? hk, rfl⟩
      exact ⟨_, .called hcalled, quiet_drop hk rfl⟩
    | rebind i role => exact ⟨s, .nothing, quiet_next hk rfl rfl rfl (quiet_rebind i)⟩
  | asyncConnect addr n =>
    obtain ⟨x, -, rfl⟩ := Option.map_eq_some_iff.1 h
    refine ⟨s, .nothing, (quiet_drop hk rfl).trans ?_⟩
    unfold asyncConnect
    split_ifs
    · exact .refl _
    · exact (quiet_task rfl rfl).trans (quiet_task rfl rfl)
  | connecting addr n => cases h
  | increment n =>
    cases h
    exact ⟨s, .nothing, (quiet_drop hk rfl).trans
      (quiet_setNode (fun _ => ⟨rfl, id, id, fun _ => id⟩) (fun _ => rfl) fun _ => rfl)⟩
  | transportLost n =>
    obtain ⟨x, -, rfl⟩ := Option.map_eq_some_iff.1 h
    refine ⟨s, .nothing, (quiet_drop hk rfl).trans ?_⟩
    unfold transportLost
    split_ifs <;> exact quiet_task rfl rfl
  | reconnect n =>
    obtain ⟨x, -, rfl⟩ := Option.map_eq_some_iff.1 h
    refine ⟨s, .nothing, (quiet_drop hk rfl).trans ?_⟩
    unfold reconnect
    split_ifs <;> exact quiet_task rfl rfl
  | forceLost n gaveUp =>
    obtain ⟨x, hx, rfl⟩ := Option.map_eq_some_iff.1 h
    exact ⟨_, .forceLost hk hx, .refl _⟩
  | lostNode n =>
    obtain ⟨x, hx, rfl⟩ := Option.map_eq_some_iff.1 h
    exact ⟨_, .lostNode hk hx, .refl _⟩
  | setRole addr n i role =>
    obtain ⟨x, hx, rfl⟩ := Option.map_eq_some_iff.1 h
    unfold setRole
    split
    · exact ⟨s, .nothing, (quiet_drop hk rfl).trans quiet_transports⟩
    · rename_i hrole
      exact ⟨_, .setRole hk hx hrole, .refl _⟩
  | setAddr addr n i role =>
    cases h
    exact ⟨_, .setAddr hk, quiet_transports⟩
  | newNode addr n role =>
    cases h
    exact ⟨_, .newNode hk, .refl _⟩

theorem step_tells (h : s.step limit a = some t) : ∃ u, Tells s a u ∧ Quiet u t := by
  cases a with
  | getSession addr node =>
    cases h
    exact ⟨s, .nothing, quiet_getSession _⟩
  | run k =>
    obtain ⟨task, hk, h⟩ := Option.bind_eq_some_iff.1 h
    exact run_tells hk h
  | connected k =>
    simp only [step] at h
    split at h
    · rename_i n hk
      cases h
      exact ⟨s, .nothing, (quiet_drop hk rfl).trans (quiet_transports.trans (quiet_bind _))⟩
    · cases h
  | connectFailed k =>
    simp only [step] at h
    split at h
    · rename_i addr n hk
      obtain ⟨x, -, rfl⟩ := Option.map_eq_some_iff.1 h
      unfold connectFailed
      split_ifs <;> exact ⟨s, .nothing, (quiet_drop hk rfl).trans (quiet_task rfl rfl)⟩
    · cases h
  | accepted =>
    cases h
    exact ⟨s, .nothing, quiet_transports⟩
  | initMessage i addr role =>
    simp only [step] at h
    split at h
    · rename_i session hi
      cases h
      cases session with
      | some n => exact ⟨_, .greeted rfl hi, quiet_transports⟩
      | none =>
        refine ⟨s, .nothing, ?_⟩
        simp only [initMessage]
        split_ifs
        · exact quiet_transports.trans (quiet_getSession _)
        · exact quiet_close i none
    · cases h
  | rpcMessage i =>
    simp only [step] at h
    split at h
    · cases h
      exact ⟨s, .nothing, quiet_close i _⟩
    · cases h
      exact ⟨s, .nothing, quiet_transports⟩
    · cases h
  | close i =>
    simp only [step] at h
    split at h
    · split_ifs at h
      cases h
      exact ⟨s, .nothing, quiet_close i _⟩
    · cases h
  | keepAliveFailed n =>
    simp only [step] at h
    split_ifs at h
    obtain ⟨x, -, rfl⟩ := Option.map_eq_some_iff.1 h
    exact ⟨s, .nothing, quiet_keepAliveFailed⟩
  | stepTimeout =>
    cases h
    exact ⟨s, .nothing, quiet_sessions List.filter_sublist⟩
  | expire n =>
    simp only [step] at h
    split_ifs at h
    cases h
    refine ⟨s, .nothing, quiet_setNode (fun _ => ⟨rfl, id, fun h => ?_, fun _ => id⟩)
      (fun _ => rfl) fun _ => rfl⟩
    exact absurd h Bool.false_ne_true

/-! ## Told of once -/

structure Counted (s : Cluster) : Prop where
  known : ∀ e ∈ s.newNodes, e.2.2 < s.nodes.length
  once : ∀ (n : ℕ) (x : Node), s.nodes[n]? = some x →
    s.newNodes.countP (fun e => e.2.2 = n) + s.coming n = x.role.isSome.toNat
  new : ∀ e ∈ s.newNodes, ∀ x, s.nodes[e.2.2]? = some x → x.role = some e.2.1
  coming : ∀ task ∈ s.tasks, ∀ p ∈ announced task,
    ∃ x, s.nodes[p.1]? = some x ∧ x.role = some p.2
  losing : ∀ n, .lostNode n ∈ s.tasks → ∃ x, s.nodes[n]? = some x ∧ x.lost = true
  lost : ∀ e ∈ s.lostNodes, ∃ x, s.nodes[e.2.2]? = some x ∧ x.lost = true ∧ x.role = some e.2.1

theorem Quiet.node (h : Quiet s t) (hx : s.nodes[n]? = some x) :
    ∃ y, t.nodes[n]? = some y ∧ Evolves x y ∧ y.role = x.role := by
  have hlt : n < t.nodes.length := h.length ▸ (List.getElem?_eq_some_iff.1 hx).1
  obtain ⟨z, hz, he, hrole, -⟩ := h.nodes n _ (List.getElem?_eq_getElem hlt)
  obtain rfl := Option.some.inj (hx.symm.trans hz)
  exact ⟨_, List.getElem?_eq_getElem hlt, he, hrole⟩

theorem Counted.quiet (hs : Counted s) (h : Quiet s t) : Counted t := by
  refine ⟨fun e he => ?_, fun n y hy => ?_, fun e he y hy => ?_, fun task htask p hp => ?_,
    fun n hn => ?_, fun e he => ?_⟩
  · rw [h.length]
    exact hs.known e (h.newNodes ▸ he)
  · obtain ⟨x, hx, -, hrole, -⟩ := h.nodes n y hy
    rw [h.newNodes, h.coming, hrole]
    exact hs.once n x hx
  · obtain ⟨x, hx, -, hrole, -⟩ := h.nodes _ y hy
    rw [hrole]
    exact hs.new e (h.newNodes ▸ he) x hx
  · obtain ⟨x, hx, hrole⟩ := hs.coming task ((h.mem (telling_of_announced hp)).1 htask) p hp
    obtain ⟨y, hy, -, hrole'⟩ := h.node hx
    exact ⟨y, hy, hrole'.trans hrole⟩
  · obtain ⟨x, hx, hlost⟩ := hs.losing n ((h.mem rfl).1 hn)
    obtain ⟨y, hy, he, -⟩ := h.node hx
    exact ⟨y, hy, he.lost hlost⟩
  · obtain ⟨x, hx, hlost, hrole⟩ := hs.lost e (h.lostNodes ▸ he)
    obtain ⟨y, hy, hxy, hrole'⟩ := h.node hx
    exact ⟨y, hy, hxy.lost hlost, hrole'.trans hrole⟩

/-- Nodes change that keep their role. -/
theorem Counted.setNode (hs : Counted s) {f : Node → Node} (hf : ∀ x, (f x).role = x.role)
    (hl : ∀ x, x.lost = true → (f x).lost = true) : Counted (s.setNode n f) := by
  have hold : ∀ (m : ℕ) (y : Node), (s.setNode n f).nodes[m]? = some y →
      ∃ x, s.nodes[m]? = some x ∧ y.role = x.role := by
    intro m y hy
    rw [setNode_getElem?] at hy
    split_ifs at hy
    · obtain ⟨x, hx, rfl⟩ := Option.map_eq_some_iff.1 hy
      exact ⟨x, hx, hf x⟩
    · exact ⟨y, hy, rfl⟩
  have hnew : ∀ (m : ℕ) (x : Node), s.nodes[m]? = some x → ∃ y,
      (s.setNode n f).nodes[m]? = some y ∧ y.role = x.role ∧ (x.lost = true → y.lost = true) := by
    intro m x hx
    rw [setNode_getElem?, hx]
    split_ifs
    · exact ⟨f x, rfl, hf x, hl x⟩
    · exact ⟨x, rfl, rfl, id⟩
  have hlen : (s.setNode n f).nodes.length = s.nodes.length := List.length_modify ..
  refine ⟨fun e he => hlen ▸ hs.known e he, fun m y hy => ?_, fun e he y hy => ?_,
    fun task htask p hp => ?_, fun m hm => ?_, fun e he => ?_⟩
  · obtain ⟨x, hx, hrole⟩ := hold m y hy
    rw [hrole]
    exact hs.once m x hx
  · obtain ⟨x, hx, hrole⟩ := hold _ y hy
    rw [hrole]
    exact hs.new e he x hx
  · obtain ⟨x, hx, hrole⟩ := hs.coming task htask p hp
    obtain ⟨y, hy, hrole', -⟩ := hnew _ x hx
    exact ⟨y, hy, hrole'.trans hrole⟩
  · obtain ⟨x, hx, hlost⟩ := hs.losing m hm
    obtain ⟨y, hy, -, hxy⟩ := hnew m x hx
    exact ⟨y, hy, hxy hlost⟩
  · obtain ⟨x, hx, hlost, hrole⟩ := hs.lost e he
    obtain ⟨y, hy, hrole', hxy⟩ := hnew _ x hx
    exact ⟨y, hy, hxy hlost, hrole'.trans hrole⟩

theorem Counted.created (hs : Counted s) (addr : Address) {l : List (Address × ℕ)} :
    Counted { s with nodes := s.nodes ++ [Node.new addr], sessions := l } := by
  have hnew : ∀ {m : ℕ} {x : Node}, s.nodes[m]? = some x →
      (s.nodes ++ [Node.new addr])[m]? = some x := by
    intro m x hx
    rw [List.getElem?_append_left (List.getElem?_eq_some_iff.1 hx).1, hx]
  have hold : ∀ {m : ℕ} {y : Node}, m < s.nodes.length →
      (s.nodes ++ [Node.new addr])[m]? = some y → s.nodes[m]? = some y :=
    fun hm hy => by rwa [List.getElem?_append_left hm] at hy
  refine ⟨fun e he => ?_, fun m y hy => ?_, fun e he y hy => ?_, fun task htask p hp => ?_,
    fun m hm => ?_, fun e he => ?_⟩
  · simpa using Nat.lt_succ_of_lt (hs.known e he)
  · by_cases hm : m < s.nodes.length
    · exact hs.once m y (hold hm hy)
    · have hy' : (s.nodes ++ [Node.new addr])[m]? = some y := hy
      rw [List.getElem?_append_right (by omega), List.getElem?_singleton] at hy'
      split_ifs at hy'
      cases hy'
      -- nothing is told of a node that was not there
      have hzero : s.newNodes.countP (fun e => e.2.2 = m) = 0 := by
        refine List.countP_eq_zero.2 fun e he hem => ?_
        have := hs.known e he
        simp only [decide_eq_true_eq] at hem
        omega
      have hnone : s.coming m = 0 := by
        refine List.countP_eq_zero.2 fun task htask htold => ?_
        obtain ⟨p, hp, rfl⟩ := Option.map_eq_some_iff.1 (of_decide_eq_true htold)
        obtain ⟨x, hx, -⟩ := hs.coming task htask p hp
        exact hm (List.getElem?_eq_some_iff.1 hx).1
      exact (congrArg₂ (· + ·) hzero hnone :)
  · exact hs.new e he y (hold (hs.known e he) hy)
  · obtain ⟨x, hx, hrole⟩ := hs.coming task htask p hp
    exact ⟨x, hnew hx, hrole⟩
  · obtain ⟨x, hx, hlost⟩ := hs.losing m hm
    exact ⟨x, hnew hx, hlost⟩
  · obtain ⟨x, hx, hlost⟩ := hs.lost e he
    exact ⟨x, hnew hx, hlost⟩

theorem coming_add (task : Task) (n : ℕ) : (s.add task).coming n =
    s.coming n + if (announced task).map Prod.fst = some n then 1 else 0 := by
  unfold Cluster.coming add
  rw [List.countP_append, List.countP_singleton]
  split_ifs with h h' <;> simp_all

theorem coming_drop (hk : s.tasks[k]? = some task) (n : ℕ) : (s.drop k).coming n +
    (if (announced task).map Prod.fst = some n then 1 else 0) = s.coming n := by
  have := Counting.countP_eraseIdx
    (p := fun task => decide ((announced task).map Prod.fst = some n)) hk
  unfold Cluster.coming
  rw [← this]
  split_ifs with h <;> simp [drop, h]

/-- A task is there that tells of nothing new. -/
theorem Counted.add (hs : Counted s) (ha : announced task = none)
    (hl : ∀ n, task = .lostNode n → ∃ x, s.nodes[n]? = some x ∧ x.lost = true) :
    Counted (s.add task) := by
  refine ⟨hs.known, fun n x hx => ?_, hs.new, fun other hother p hp => ?_, fun n hn => ?_, hs.lost⟩
  · rw [coming_add, ha]
    exact hs.once n x hx
  · obtain ho | ho := List.mem_append.1 hother
    · exact hs.coming other ho p hp
    · rw [List.mem_singleton.1 ho, ha] at hp
      cases hp
  · obtain ho | ho := List.mem_append.1 hn
    · exact hs.losing n ho
    · exact hl n (List.mem_singleton.1 ho).symm

/-- A task is over that `new_node` is not called by. -/
theorem Counted.drop (hs : Counted s) (hk : s.tasks[k]? = some task) (ha : announced task = none) :
    Counted (s.drop k) := by
  refine ⟨hs.known, fun n x hx => ?_, hs.new, fun other hother => ?_, fun n hn => ?_, hs.lost⟩
  · have hcoming := coming_drop hk n
    rw [ha, Option.map_none, if_neg (by simp), Nat.add_zero] at hcoming
    rw [hcoming]
    exact hs.once n x hx
  · exact hs.coming other (List.mem_of_mem_eraseIdx hother)
  · exact hs.losing n (List.mem_of_mem_eraseIdx hn)

theorem Counted.forceLost {gaveUp : Bool} (hs : Counted s) (hx : s.nodes[n]? = some x) :
    Counted (s.forceLost n gaveUp) := by
  have hset : Counted (s.setNode n fun x => { x with lost := true }) :=
    hs.setNode (fun _ => rfl) fun _ _ => rfl
  unfold Cluster.forceLost
  simp only []
  split_ifs
  · refine hset.add rfl fun m hm => ?_
    cases hm
    exact ⟨{ x with lost := true }, by rw [setNode_getElem?, if_pos rfl, hx]; rfl, rfl⟩
  · exact hset

theorem Counted.lostNode (hs : Counted s) (hx : s.nodes[n]? = some x) (hl : x.lost = true) :
    Counted (s.lostNode n x) := by
  unfold Cluster.lostNode
  split
  · rename_i role hrole
    refine ⟨hs.known, hs.once, hs.new, hs.coming, hs.losing, fun e he => ?_⟩
    obtain he | he := List.mem_append.1 he
    · exact hs.lost e he
    · rw [List.mem_singleton.1 he]
      exact ⟨x, hx, hl, hrole⟩
  · exact hs

/-- A node gets its role, and `new_node` is to come. -/
theorem Counted.setRole {i : ℕ} (hs : Counted s) (hx : s.nodes[n]? = some x)
    (hrole : x.role = none) (addr : Address) (role : UInt8) :
    Counted ((s.setNode n fun x => { x with role := some role }).add (.setAddr addr n i role)) := by
  have hself : (s.setNode n fun x => { x with role := some role }).nodes[n]? =
      some { x with role := some role } := by
    rw [setNode_getElem?, if_pos rfl, hx]
    rfl
  have hother : ∀ {m : ℕ}, n ≠ m →
      (s.setNode n fun x => { x with role := some role }).nodes[m]? = s.nodes[m]? :=
    fun hm => by rw [setNode_getElem?, if_neg hm]
  -- so far the node was not told of
  have hnot : ∀ {m : ℕ} {y : Node} {r : UInt8}, s.nodes[m]? = some y → y.role = some r → n ≠ m := by
    rintro m y r hy hr rfl
    obtain rfl := Option.some.inj (hx.symm.trans hy)
    rw [hrole] at hr
    cases hr
  have hlen : (s.setNode n fun x => { x with role := some role }).nodes.length =
      s.nodes.length := List.length_modify ..
  refine ⟨fun e he => hlen ▸ hs.known e he, fun m y hy => ?_, fun e he y hy => ?_,
    fun task htask p hp => ?_, fun m hm => ?_, fun e he => ?_⟩
  · rw [coming_add]
    show s.newNodes.countP (fun e => e.2.2 = m) + (s.coming m + _) = _
    by_cases hm : n = m
    · subst hm
      have honce := hs.once n x hx
      rw [hrole] at honce
      obtain rfl := Option.some.inj (hself.symm.trans hy)
      simp only [announced, Option.map_some, if_true]
      exact congrArg (· + 1) honce
    · have hy' : s.nodes[m]? = some y := (hother hm).symm.trans hy
      simpa [announced, hm] using hs.once m y hy'
  · have hlt := hs.known e he
    have hold := hs.new e he _ (List.getElem?_eq_getElem hlt)
    have hm := hnot (List.getElem?_eq_getElem hlt) hold
    exact hs.new e he y ((hother hm).symm.trans hy)
  · obtain ht | ht := List.mem_append.1 htask
    · obtain ⟨y, hy, hr⟩ := hs.coming task ht p hp
      exact ⟨y, (hother (hnot hy hr)).trans hy, hr⟩
    · rw [List.mem_singleton.1 ht] at hp
      obtain rfl : (n, role) = p := by simpa [announced] using hp
      exact ⟨_, hself, rfl⟩
  · obtain hm | hm := List.mem_append.1 hm
    · obtain ⟨y, hy, hl⟩ := hs.losing m hm
      by_cases hnm : n = m
      · subst hnm
        obtain rfl := Option.some.inj (hx.symm.trans hy)
        exact ⟨_, hself, hl⟩
      · exact ⟨y, (hother hnm).trans hy, hl⟩
    · simp at hm
  · obtain ⟨y, hy, hl, hr⟩ := hs.lost e he
    exact ⟨y, (hother (hnot hy hr)).trans hy, hl, hr⟩

/-- `new_node` is submitted. -/
theorem Counted.setAddr {i : ℕ} {role : UInt8} (hs : Counted s)
    (hk : s.tasks[k]? = some (.setAddr addr n i role)) :
    Counted (((s.drop k).setNode n fun x => { x with addr := addr }).add
      (.newNode addr n role)) := by
  have hmem := hs.coming _ (List.mem_of_getElem? hk) (n, role) rfl
  -- the one task for the other
  have hnext : Counted ((s.drop k).add (.newNode addr n role)) := by
    refine ⟨hs.known, fun m x hx => ?_, hs.new, fun task htask p hp => ?_, fun m hm => ?_, hs.lost⟩
    · have hcoming : (s.drop k).coming m + (if (announced (.newNode addr n role)).map Prod.fst =
          some m then 1 else 0) = s.coming m := coming_drop hk m
      rw [coming_add, hcoming]
      exact hs.once m x hx
    · obtain ht | ht := List.mem_append.1 htask
      · exact hs.coming task (List.mem_of_mem_eraseIdx ht) p hp
      · rw [List.mem_singleton.1 ht] at hp
        obtain rfl : (n, role) = p := by simpa [announced] using hp
        exact hmem
    · obtain hm | hm := List.mem_append.1 hm
      · exact hs.losing m (List.mem_of_mem_eraseIdx hm)
      · simp at hm
  have hset := hnext.setNode (n := n) (f := fun x => { x with addr := addr }) (fun _ => rfl)
    fun _ => id
  exact hset

theorem Counted.newNode {role : UInt8} (hs : Counted s)
    (hk : s.tasks[k]? = some (.newNode addr n role)) :
    Counted { s.drop k with newNodes := s.newNodes ++ [(addr, role, n)] } := by
  obtain ⟨x, hx, hrole⟩ := hs.coming _ (List.mem_of_getElem? hk) (n, role) rfl
  refine ⟨fun e he => ?_, fun m y hy => ?_, fun e he y hy => ?_, fun task htask => ?_,
    fun m hm => hs.losing m (List.mem_of_mem_eraseIdx hm), hs.lost⟩
  · obtain he | he := List.mem_append.1 he
    · exact hs.known e he
    · rw [List.mem_singleton.1 he]
      exact (List.getElem?_eq_some_iff.1 hx).1
  · have hcoming := coming_drop hk m
    have honce := hs.once m y hy
    rw [← hcoming] at honce
    rw [← honce, List.countP_append, List.countP_singleton]
    simp only [announced, Option.map_some, Option.some.injEq, decide_eq_true_eq]
    show _ + _ + (s.drop k).coming m = _
    omega
  · obtain he | he := List.mem_append.1 he
    · exact hs.new e he y hy
    · rw [List.mem_singleton.1 he] at hy ⊢
      obtain rfl := Option.some.inj (hx.symm.trans hy)
      exact hrole
  · exact hs.coming task (List.mem_of_mem_eraseIdx htask)

theorem Counted.tells (hs : Counted s) (h : Tells s a u) : Counted u := by
  cases h with
  | nothing => exact hs
  | created addr => exact hs.created addr
  | called _ =>
    refine hs.setNode (fun x => ?_) fun x => ?_
    · split_ifs <;> rfl
    · split_ifs <;> exact id
  | forceLost hk hx => exact (hs.drop hk rfl).forceLost hx
  | @lostNode k n x hk hx =>
    obtain ⟨y, hy, hl⟩ := hs.losing n (List.mem_of_getElem? hk)
    obtain rfl := Option.some.inj (hx.symm.trans hy)
    exact (hs.drop hk rfl).lostNode hx hl
  | setRole hk hx hrole => exact (hs.drop hk rfl).setRole hx hrole _ _
  | setAddr hk => exact hs.setAddr hk
  | newNode hk => exact hs.newNode hk
  | greeted _ _ => exact hs.add rfl (by simp)

theorem Counted.step (hs : Counted s) (h : s.step limit a = some t) : Counted t := by
  obtain ⟨u, hu, hq⟩ := step_tells h
  exact (hs.tells hu).quiet hq

theorem counted_init : Counted init :=
  ⟨by simp [init], by simp [init], by simp [init], by simp [init], by simp [init], by simp [init]⟩

/-- Once a node has a role, `new_node` is called for it or is to come, once, with the role that it
has from then on; and whatever is said to be lost is lost and has that role. -/
theorem announced_once (h : Run (step limit) Free init as s) (hx : s.nodes[n]? = some x) :
    s.newNodes.countP (fun e => e.2.2 = n) + s.coming n = x.role.isSome.toNat ∧
      (∀ e ∈ s.newNodes, e.2.2 = n → x.role = some e.2.1) ∧
      (∀ task ∈ s.tasks, ∀ role, announced task = some (n, role) → x.role = some role) ∧
      ∀ e ∈ s.lostNodes, e.2.2 = n → x.lost = true ∧ x.role = some e.2.1 := by
  have hs : Counted s := h.inv (fun _ _ _ hs _ hst => hs.step hst) counted_init
  refine ⟨hs.once n x hx, fun e he hn => ?_, fun task htask role hp => ?_, fun e he hn => ?_⟩
  · exact hs.new e he x (hn ▸ hx)
  · obtain ⟨y, hy, hrole⟩ := hs.coming task htask (n, role) hp
    obtain rfl := Option.some.inj (hx.symm.trans hy)
    exact hrole
  · obtain ⟨y, hy, hlost⟩ := hs.lost e he
    rw [hn] at hy
    obtain rfl := Option.some.inj (hx.symm.trans hy)
    exact hlost

/-- The manager gives a server up that has just said its role. -/
def left : List Act :=
  [.getSession server false, .run 0, .run 0, .connected 1, .initMessage 0 server 1, .run 2] ++
    List.replicate 6 (.keepAliveFailed 0) ++ [.run 3, .run 3, .run 3]

/-- It is said to be lost, without its address, before `new_node`. -/
theorem announced_once_left : ∃ s x, Run (step 0) Free init left s ∧ s.nodes[0]? = some x ∧
    s.lostNodes = [(⟨List.replicate 6 0⟩, 1, 0)] ∧ x.lost = true ∧ x.role = some 1 ∧
    s.newNodes = [] ∧ 0 + s.coming 0 = 1 := by
  have hrun : Run (step 0) Free init left _ := Machine.exec_run rfl
  obtain ⟨hnew, -, -, hlost⟩ := announced_once hrun (n := 0) rfl
  obtain ⟨hl, hrole⟩ := hlost (⟨List.replicate 6 0⟩, 1, 0) (by decide) rfl
  exact ⟨_, _, hrun, rfl, rfl, hl, hrole, rfl, hnew⟩

/-! ## One node at an address -/

/-- A server says the address that it was connected by. -/
def Honest (s : Cluster) : Act → Prop
  | .initMessage i addr _ =>
    ∀ n ∈ (s.transports[i]?).bind (·.session), (s.nodes[n]?).map Node.origin = some addr
  | _ => True

instance (s : Cluster) (a : Act) : Decidable (Honest s a) := by
  cases a <;> unfold Honest <;> infer_instance

/-- The node has got its role, and is about to get its address. -/
def Storing (s : Cluster) (n : ℕ) (role : UInt8) : Prop :=
  ∃ addr i, .setAddr addr n i role ∈ s.tasks

structure Called (s : Cluster) : Prop where
  names : ∀ p, Names s p → (s.nodes[p.2]?).map Node.origin = some p.1
  addr : ∀ (n : ℕ) (x : Node), s.nodes[n]? = some x → ∀ role ∈ x.role,
    x.addr = x.origin ∨ Storing s n role

theorem Called.quiet (hs : Called s) (h : Quiet s t) : Called t := by
  refine ⟨fun p hp => ?_, fun n y hy role hr => ?_⟩
  · obtain ⟨x, hx, ho⟩ := Option.map_eq_some_iff.1 (hs.names p (h.names p hp))
    obtain ⟨y, hy, he, -⟩ := h.node hx
    rw [hy, Option.map_some, he.origin, ho]
  · obtain ⟨x, hx, he, hrole, haddr⟩ := h.nodes n y hy
    rw [haddr, he.origin]
    refine (hs.addr n x hx role (hrole ▸ hr)).imp_right fun ⟨addr, i, ht⟩ => ?_
    exact ⟨addr, i, (h.mem rfl).2 ht⟩

theorem Called.setNode (hs : Called s) {f : Node → Node} (hf : ∀ x, (f x).origin = x.origin)
    (hl : ∀ x, s.nodes[n]? = some x → ∀ role ∈ (f x).role,
      (f x).addr = x.origin ∨ Storing s n role) :
    Called (s.setNode n f) := by
  refine ⟨fun p hp => ?_, fun m y hy => ?_⟩
  · have ho := hs.names p hp
    rw [setNode_getElem?]
    split_ifs
    · rw [Option.map_map, ← ho]
      exact congrArg (Option.map · _) (funext hf)
    · exact ho
  · rw [setNode_getElem?] at hy
    split_ifs at hy with hm
    · subst hm
      obtain ⟨x, hx, rfl⟩ := Option.map_eq_some_iff.1 hy
      rw [hf]
      exact hl x hx
    · exact hs.addr m y hy

theorem Called.created (hs : Called s) (addr : Address) :
    Called { s with
      nodes := s.nodes ++ [Node.new addr]
      sessions := s.sessions ++ [(addr, s.nodes.length)] } := by
  refine ⟨fun p hp => ?_, fun m y hy role hr => ?_⟩
  · have hold : Names s p → ((s.nodes ++ [Node.new addr])[p.2]?).map Node.origin = some p.1 := by
      intro hp
      obtain ⟨x, hx, ho⟩ := Option.map_eq_some_iff.1 (hs.names p hp)
      rw [List.getElem?_append_left (List.getElem?_eq_some_iff.1 hx).1, hx, Option.map_some, ho]
    obtain hp | hp := hp
    · obtain hp | hp := List.mem_append.1 hp
      · exact hold (.inl hp)
      · rw [List.mem_singleton.1 hp]
        simp [Node.new]
    · exact hold (.inr hp)
  · have hy' : (s.nodes ++ [Node.new addr])[m]? = some y := hy
    rw [List.getElem?_append] at hy'
    split_ifs at hy' with hm
    · exact hs.addr m y hy' role hr
    · rw [List.getElem?_singleton] at hy'
      split_ifs at hy'
      cases hy'
      cases hr

theorem Called.add (hs : Called s) (h : ∀ p, naming task = some p →
    (s.nodes[p.2]?).map Node.origin = some p.1) : Called (s.add task) := by
  refine ⟨fun p hp => (names_add hp).elim (hs.names p) (h p), fun n x hx role hr => ?_⟩
  exact (hs.addr n x hx role hr).imp_right fun ⟨addr, i, ht⟩ =>
    ⟨addr, i, List.mem_append_left _ ht⟩

/-- A task is over by which no node gets its address. -/
theorem Called.drop (hs : Called s) (hk : s.tasks[k]? = some task)
    (ht : ∀ addr n i role, task ≠ .setAddr addr n i role) : Called (s.drop k) := by
  refine ⟨fun p hp => hs.names p (names_drop hp), fun n x hx role hr => ?_⟩
  refine (hs.addr n x hx role hr).imp_right fun ⟨addr, i, hmem⟩ => ⟨addr, i, ?_⟩
  obtain ⟨j, hj⟩ := List.mem_iff_getElem?.1 hmem
  refine List.mem_eraseIdx_iff_getElem?.2 ⟨j, ?_, hj⟩
  rintro rfl
  exact ht addr n i role (Option.some.inj (hk.symm.trans hj))

theorem Called.forceLost {gaveUp : Bool} (hs : Called s) : Called (s.forceLost n gaveUp) := by
  have hset : Called (s.setNode n fun x => { x with lost := true }) :=
    hs.setNode (fun _ => rfl) fun x hx => hs.addr n x hx
  unfold Cluster.forceLost
  simp only []
  split_ifs
  · exact hset.add (by simp [naming])
  · exact hset

/-- A node gets its role, and its address next. -/
theorem Called.setRole {i : ℕ} {role : UInt8} (hs : Called s)
    (hname : (s.nodes[n]?).map Node.origin = some addr) :
    Called ((s.setNode n fun x => { x with role := some role }).add (.setAddr addr n i role)) := by
  have hadd : Called (s.add (.setAddr addr n i role)) := by
    refine hs.add fun p hp => ?_
    cases hp
    exact hname
  refine hadd.setNode (fun _ => rfl) fun x _ role' hr => .inr ⟨addr, i, ?_⟩
  obtain rfl : role = role' := by simpa using hr
  exact List.mem_append_right _ (List.mem_singleton_self _)

/-- A node gets its address. -/
theorem Called.setAddr {i : ℕ} {role : UInt8} (hs : Called s)
    (hk : s.tasks[k]? = some (.setAddr addr n i role)) :
    Called (((s.drop k).setNode n fun x => { x with addr := addr }).add
      (.newNode addr n role)) := by
  have hname := hs.names (addr, n) (.inr ⟨_, List.mem_of_getElem? hk, rfl⟩)
  refine Called.add ⟨fun p hp => ?_, fun m y hy role' hr => ?_⟩ (by simp [naming])
  · have ho := hs.names p (names_drop hp)
    rw [setNode_getElem?]
    split_ifs
    · rw [Option.map_map]
      exact ho
    · exact ho
  · rw [setNode_getElem?] at hy
    split_ifs at hy with hm
    · subst hm
      obtain ⟨x, hx, rfl⟩ := Option.map_eq_some_iff.1 hy
      have hx' : s.nodes[n]? = some x := hx
      rw [hx'] at hname
      exact .inl (Option.some.inj hname).symm
    · refine (hs.addr m y hy role' hr).imp_right fun ⟨addr', i', hmem⟩ => ⟨addr', i', ?_⟩
      obtain ⟨j, hj⟩ := List.mem_iff_getElem?.1 hmem
      refine List.mem_eraseIdx_iff_getElem?.2 ⟨j, ?_, hj⟩
      rintro rfl
      cases hk.symm.trans hj
      exact hm rfl

theorem Called.tells (hs : Called s) (ha : Honest s a) (h : Tells s a u) : Called u := by
  cases h with
  | nothing => exact hs
  | created addr => exact hs.created addr
  | @called addr n hname =>
    refine hs.setNode (fun x => ?_) fun x hx role hr => ?_
    · split_ifs <;> rfl
    · split_ifs at hr ⊢
      · exact hs.addr n x hx role hr
      · have := hs.names _ hname
        rw [hx] at this
        exact .inl (Option.some.inj this).symm
  | forceLost hk _ => exact (hs.drop hk (by simp)).forceLost
  | @lostNode k n x hk _ =>
    have hdrop := hs.drop hk (by simp)
    unfold Cluster.lostNode
    split
    · exact ⟨hdrop.names, hdrop.addr⟩
    · exact hdrop
  | setRole hk _ _ =>
    exact (hs.drop hk (by simp)).setRole (hs.names _ (.inr ⟨_, List.mem_of_getElem? hk, rfl⟩))
  | setAddr hk => exact hs.setAddr hk
  | newNode hk =>
    have hdrop := hs.drop hk (by simp)
    exact ⟨hdrop.names, hdrop.addr⟩
  | @greeted addr n i role he hi =>
    refine hs.add fun p hp => ?_
    subst he
    cases hp
    exact ha n (by rw [hi]; rfl)

theorem Called.step (hs : Called s) (ha : Honest s a) (h : s.step limit a = some t) : Called t := by
  obtain ⟨u, hu, hq⟩ := step_tells h
  exact (hs.tells ha hu).quiet hq

theorem called_init : Called init :=
  ⟨fun _ hp => hp.elim (by simp [init]) fun ⟨_, h, _⟩ => absurd h (by simp [init]), by simp [init]⟩

theorem filterMap_sublist_map {α β : Type*} {f : α → Option β} {g : α → β} :
    ∀ {l : List α}, (∀ p ∈ l, ∀ b ∈ f p, b = g p) → (l.filterMap f).Sublist (l.map g)
  | [], _ => .slnil
  | p :: l, h => by
    have ih := filterMap_sublist_map (l := l) fun q hq => h q (List.mem_cons_of_mem _ hq)
    rw [List.filterMap_cons, List.map_cons]
    split
    · exact ih.cons _
    · rename_i b hb
      rw [h p List.mem_cons_self b hb]
      exact ih.cons_cons _

/-- The addresses of the sessions that can be used are different. -/
theorem Single.nodup (hs : Single s) :
    ((s.sessions.filter fun p => s.usable p.2).map Prod.fst).Nodup := by
  rw [List.nodup_iff_count_le_one]
  intro addr
  refine le_trans (le_of_eq ?_) (hs.single addr)
  rw [List.count, List.countP_map, List.countP_filter]
  exact List.countP_congr fun p _ => by simp

/-- If servers say the addresses that they were connected by, then `for_each_node` comes to each
address once that has a session that can be used for a node of the role, while none of them is
about to get its address. -/
theorem eachNode_once (h : Run (step limit) Honest init as s) (hrole : role ≠ 255)
    (hset : ∀ n, ¬ Storing s n role) :
    (s.eachNode role).Nodup ∧ ∀ addr, addr ∈ s.eachNode role ↔ ∃ n x, (addr, n) ∈ s.sessions ∧
      s.usable n = true ∧ s.nodes[n]? = some x ∧ x.role = some role := by
  have hcalled : Called s := h.inv (fun _ _ _ hs ha hst => hs.step ha hst) called_init
  have hsingle : Single s := run_single (h.mono fun _ _ _ => trivial)
  -- -1 is none of the other roles
  have hgetD : ∀ x : Node, x.role.getD 255 = role ↔ x.role = some role := by
    intro x
    cases x.role with
    | none => simp [Ne.symm hrole]
    | some r => simp
  have haddr : ∀ p ∈ s.sessions, ∀ x, s.nodes[p.2]? = some x → x.role = some role →
      x.addr = p.1 := by
    intro p hp x hx hr
    have ho := hcalled.names p (.inl hp)
    rw [hx] at ho
    rw [(hcalled.addr p.2 x hx role hr).resolve_right (hset p.2)]
    exact Option.some.inj ho
  refine ⟨(filterMap_sublist_map fun p hp addr ha => ?_).nodup hsingle.nodup, fun addr => ?_⟩
  · obtain ⟨x, hx, hxa⟩ := Option.bind_eq_some_iff.1 ha
    split_ifs at hxa with hr
    cases hxa
    exact haddr p (List.mem_filter.1 hp).1 x hx ((hgetD x).1 hr)
  · unfold eachNode
    rw [List.mem_filterMap]
    constructor
    · rintro ⟨⟨a, n⟩, hp, ha⟩
      obtain ⟨hp, husable⟩ := List.mem_filter.1 hp
      obtain ⟨x, hx, hxa⟩ := Option.bind_eq_some_iff.1 ha
      split_ifs at hxa with hr
      cases hxa
      obtain rfl := haddr _ hp x hx ((hgetD x).1 hr)
      exact ⟨n, x, hp, husable, hx, (hgetD x).1 hr⟩
    · rintro ⟨n, x, hp, husable, hx, hr⟩
      refine ⟨(addr, n), List.mem_filter.2 ⟨hp, husable⟩, ?_⟩
      rw [hx, Option.bind_some, if_pos ((hgetD x).2 hr), haddr _ hp x hx hr]

theorem eachNode_once_met : ∃ s,
    Run (step 0) Honest init (met ++ [.initMessage 0 server 1, .run 3, .run 3]) s ∧
      (s.eachNode 1).Nodup ∧ server ∈ s.eachNode 1 := by
  have hrun : ∃ s x, Run (step 0) Honest init (met ++ [.initMessage 0 server 1, .run 3, .run 3]) s ∧
      s.tasks.filter telling = [.newNode server 0 1] ∧ s.sessions = [(server, 0)] ∧
      s.usable 0 = true ∧ s.nodes[0]? = some x ∧ x.role = some 1 :=
    ⟨_, _, Machine.execIf_run rfl, rfl, rfl, rfl, rfl, rfl⟩
  obtain ⟨s, x, hrun, htasks, hsessions, husable, hx, hr⟩ := hrun
  have hset : ∀ n, ¬ Storing s n 1 := by
    rintro n ⟨addr, i, hmem⟩
    have hmem := List.mem_filter.2 ⟨hmem, show telling (.setAddr addr n i 1) = true from rfl⟩
    rw [htasks] at hmem
    simp at hmem
  obtain ⟨hnodup, hmem⟩ := eachNode_once hrun (by decide) hset
  exact ⟨s, hrun, hnodup, (hmem server).2 ⟨0, x, by simp [hsessions], husable, hx, hr⟩⟩

end Cluster

end Kumofs.Rpc
