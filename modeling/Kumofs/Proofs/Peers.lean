import Kumofs.Lib.Count
import Kumofs.Rpc.Peers
import Mathlib.Data.List.Nodup
import Mathlib.Tactic.SplitIfs

/-!
# Whom a server pushes to

The map of the peers has those that `transport_lost_notify` has not come to, none of which is lost,
and `for_each_peer` comes to each of them once, as long as no peer is put into it after that.
`subsys::add_session` puts it there in time. `accepted` may come too late: what it leaves in the map
keeps out the next peer at that place.
-/

namespace Kumofs.Rpc

open Machine (Run Free)

namespace Peers

variable {s t u : Peers} {a : Act} {as : List Act} {x y : Peer} {task : PeerTask}
  {p q k place : ℕ}

@[simp] theorem setPeer_getElem? (s : Peers) (p : ℕ) (f : Peer → Peer) (q : ℕ) :
    (s.setPeer p f).peers[q]? = if p = q then s.peers[q]?.map f else s.peers[q]? := by
  rw [setPeer, List.getElem?_modify]
  split_ifs <;> cases s.peers[q]? <;> rfl

/-- Whoever has the only pointer to a peer, until it is lost. -/
def Carried (s : Peers) (p : ℕ) : Prop :=
  p ∈ s.transports ∨ .rebind p ∈ s.tasks ∨ .transportLost p ∈ s.tasks ∨ .forceLost p ∈ s.tasks

theorem Carried.held (h : Carried s p) : s.Held p := by
  obtain h | h | h | h := h
  · exact .inl h
  · exact .inr ⟨_, h, rfl⟩
  · exact .inr ⟨_, h, rfl⟩
  · exact .inr ⟨_, h, rfl⟩

theorem Carried.append (h : Carried s p) (htransports : ∀ q ∈ s.transports, q ∈ t.transports)
    (htasks : ∀ task ∈ s.tasks, task ∈ t.tasks) : Carried t p :=
  h.imp (htransports p) (Or.imp (htasks _) (Or.imp (htasks _) (htasks _)))

/-- What holds of a server, whoever is late. -/
structure Sound (s : Peers) : Prop where
  tasks : ∀ task ∈ s.tasks, task.peer < s.peers.length
  transports : ∀ p ∈ s.transports, p < s.peers.length
  map : ∀ e ∈ s.map, ∃ x, s.peers[e.2]? = some x ∧ x.place = e.1
  apart : ∀ (p q : ℕ) (x y : Peer), s.peers[p]? = some x → s.peers[q]? = some y →
    x.alive = true → y.alive = true → x.place = y.place → p = q
  alive : ∀ (p : ℕ) (x : Peer), s.peers[p]? = some x → s.Held p → x.alive = true
  carried : ∀ (p : ℕ) (x : Peer), s.peers[p]? = some x → x.lost = false → Carried s p
  inserts : ∀ p, s.tasks.count (.insert p) + (s.map.map Prod.snd).count p ≤ 1

/-- The peer is not lost, and `transport_lost_notify` is not about to say that it is. -/
def Present (s : Peers) (p : ℕ) : Prop :=
  (s.peers[p]?).map Peer.lost = some false ∧ .forceLost p ∉ s.tasks

/-- The map has the peers that are present, once they were put there, and `for_each_peer` comes to
all that it has, and to each once. -/
structure Exact (s : Peers) : Prop where
  entries : ∀ p, p ∈ s.map.map Prod.snd ↔ Present s p ∧ .insert p ∉ s.tasks
  visits : s.eachPeer = s.map.map Prod.snd
  once : s.eachPeer.Nodup

/-- A peer in the map is not lost, and therefore not freed. -/
theorem Sound.usable (hs : Sound s) (h : Present s p) :
    ∃ x, s.peers[p]? = some x ∧ x.lost = false ∧ x.alive = true := by
  obtain ⟨x, hx, hl⟩ := Option.map_eq_some_iff.1 h.1
  exact ⟨x, hx, hl, hs.alive p x hx (hs.carried p x hx hl).held⟩

theorem exact_of_entries (hs : Sound s) (h : ∀ p, p ∈ s.map.map Prod.snd ↔
    Present s p ∧ .insert p ∉ s.tasks) : Exact s := by
  have hvisits : s.eachPeer = s.map.map Prod.snd := by
    refine List.filter_eq_self.2 fun p hp => ?_
    obtain ⟨x, hx, hl, ha⟩ := hs.usable ((h p).1 hp).1
    simp [Peers.usable, hx, hl, ha]
  refine ⟨h, hvisits, hvisits ▸ List.nodup_iff_count_le_one.2 fun p => ?_⟩
  have := hs.inserts p
  omega

/-- The place of a peer is in the map for the peer only. -/
theorem Exact.peer_eq (he : Exact s) (hs : Sound s) (hx : s.peers[p]? = some x)
    (ha : x.alive = true) {e : ℕ × ℕ} (hmem : e ∈ s.map) (hplace : e.1 = x.place) : e.2 = p := by
  obtain ⟨y, hy, hey⟩ := hs.map e hmem
  obtain ⟨y', hy', -, ha'⟩ := hs.usable ((he.entries e.2).1 (List.mem_map_of_mem hmem)).1
  rw [hy] at hy'
  cases hy'
  exact hs.apart e.2 p y x hy hx ha' ha (hey.trans hplace)

theorem insert_of_not_mem (h : ∀ e ∈ s.map, e.1 ≠ place) :
    s.insert place p = { s with map := s.map ++ [(place, p)] } := by
  refine if_neg fun hany => ?_
  obtain ⟨e, he, heq⟩ := List.any_eq_true.1 hany
  exact h e he (beq_iff_eq.1 heq)

/-- A peer is created at a place that is vacant. -/
theorem Sound.create (hs : Sound s) (hv : s.vacant place = true)
    (hpeers : t.peers = s.peers ++ [⟨place, false, true⟩])
    (htasks : ∀ task ∈ t.tasks, task ∈ s.tasks ∨ task.peer = s.peers.length)
    (htransports : ∀ p ∈ t.transports, p ∈ s.transports ∨ p = s.peers.length)
    (hmap : ∀ e ∈ t.map, e ∈ s.map ∨ e = (place, s.peers.length))
    (hold : ∀ p, Carried s p → Carried t p) (hnew : Carried t s.peers.length)
    (hinserts : ∀ p, t.tasks.count (.insert p) + (t.map.map Prod.snd).count p ≤ 1) : Sound t := by
  have hlen : t.peers.length = s.peers.length + 1 := by simp [hpeers]
  have hself : t.peers[s.peers.length]? = some ⟨place, false, true⟩ := by simp [hpeers]
  have hother : ∀ {q y}, q ≠ s.peers.length → t.peers[q]? = some y → s.peers[q]? = some y := by
    intro q y hq hy
    have hlt := (List.getElem?_eq_some_iff.1 hy).1
    rwa [hpeers, List.getElem?_append_left (by omega)] at hy
  have hvacant : ∀ (q : ℕ) (y : Peer), s.peers[q]? = some y → y.alive = true → y.place ≠ place := by
    intro q y hy ha
    simpa [ha] using List.all_eq_true.1 hv y (List.mem_of_getElem? hy)
  refine ⟨fun task ht => ?_, fun p hp => ?_, fun e he => ?_, fun p q x y hx hy hxa hya hxy => ?_,
    fun p x hx hp => ?_, fun p x hx hl => ?_, hinserts⟩
  · obtain ht | ht := htasks task ht
    · have := hs.tasks task ht
      omega
    · omega
  · obtain hp | hp := htransports p hp
    · have := hs.transports p hp
      omega
    · omega
  · obtain he | rfl := hmap e he
    · obtain ⟨x, hx, hxe⟩ := hs.map e he
      refine ⟨x, ?_, hxe⟩
      rw [hpeers, List.getElem?_append_left (List.getElem?_eq_some_iff.1 hx).1, hx]
    · exact ⟨_, hself, rfl⟩
  · by_cases hp : p = s.peers.length <;> by_cases hq : q = s.peers.length
    · rw [hp, hq]
    · rw [hp, hself] at hx
      cases hx
      exact absurd hxy.symm (hvacant q y (hother hq hy) hya)
    · rw [hq, hself] at hy
      cases hy
      exact absurd hxy (hvacant p x (hother hp hx) hxa)
    · exact hs.apart p q x y (hother hp hx) (hother hq hy) hxa hya hxy
  · by_cases hpn : p = s.peers.length
    · rw [hpn, hself] at hx
      cases hx
      rfl
    · refine hs.alive p x (hother hpn hx) ?_
      obtain hp | ⟨task, ht, hp⟩ := hp
      · exact .inl ((htransports p hp).resolve_right hpn)
      · exact .inr ⟨task, (htasks task ht).resolve_right fun h => hpn (hp ▸ h), hp⟩
  · by_cases hpn : p = s.peers.length
    · exact hpn ▸ hnew
    · exact hold p (hs.carried p x (hother hpn hx) hl)

theorem Sound.fresh (hs : Sound s) : s.tasks.count (.insert s.peers.length) = 0 ∧
    (s.map.map Prod.snd).count s.peers.length = 0 := by
  refine ⟨List.count_eq_zero.2 fun h => ?_, List.count_eq_zero.2 fun h => ?_⟩
  · exact Nat.lt_irrefl _ (hs.tasks _ h)
  · obtain ⟨e, he, hlen⟩ := List.mem_map.1 h
    obtain ⟨x, hx, -⟩ := hs.map e he
    rw [hlen] at hx
    simp at hx

theorem Sound.accepted (hs : Sound s) (hv : s.vacant place = true) : Sound (s.accepted place) := by
  refine hs.create hv rfl (fun task ht => ?_) (fun p hp => ?_) (fun _ he => .inl he)
    (fun p hp => ?_) (.inl (List.mem_append_right _ (List.mem_singleton_self _))) fun p => ?_
  · exact (List.mem_append.1 ht).imp_right fun ht => by rw [List.mem_singleton.1 ht]; rfl
  · exact (List.mem_append.1 hp).imp_right List.mem_singleton.1
  · exact hp.append (fun _ => List.mem_append_left _) fun _ => List.mem_append_left _
  · show (s.tasks ++ [PeerTask.insert s.peers.length]).count _ +
      (s.map.map Prod.snd).count p ≤ 1
    rw [List.count_append, List.count_singleton]
    by_cases hp : s.peers.length = p
    · have := hs.fresh
      rw [hp] at this
      simp only [hp, beq_self_eq_true, ↓reduceIte]
      omega
    · have := hs.inserts p
      simpa [hp] using this

theorem insert_map (s : Peers) (place p : ℕ) :
    (s.insert place p).map = s.map ∨ (s.insert place p).map = s.map ++ [(place, p)] := by
  unfold insert
  split_ifs
  · exact .inl rfl
  · exact .inr rfl

theorem insert_count (s : Peers) (place p q : ℕ) : ((s.insert place p).map.map Prod.snd).count q ≤
    (s.map.map Prod.snd).count q + if p = q then 1 else 0 := by
  obtain h | h := insert_map s place p
  · rw [h]
    exact Nat.le_add_right _ _
  · rw [h, List.map_append, List.count_append]
    simp [List.count_singleton]

theorem insert_fields (s : Peers) (place p : ℕ) : (s.insert place p).peers = s.peers ∧
    (s.insert place p).transports = s.transports ∧ (s.insert place p).tasks = s.tasks := by
  unfold insert
  split_ifs <;> exact ⟨rfl, rfl, rfl⟩

theorem Sound.addSession (hs : Sound s) (hv : s.vacant place = true) :
    Sound (s.addSession place) := by
  obtain ⟨hpeers, htransports, htasks⟩ := insert_fields (s.create place) place s.peers.length
  have htasks' : (s.addSession place).tasks = s.tasks ++ [.rebind s.peers.length] :=
    congrArg (· ++ [PeerTask.rebind s.peers.length]) htasks
  have htransports' : (s.addSession place).transports = s.transports := htransports
  refine hs.create hv hpeers (fun task ht => ?_) (fun p hp => ?_) (fun e he => ?_)
    (fun p hp => ?_) (.inr (.inl ?_)) fun p => ?_
  · rw [htasks'] at ht
    exact (List.mem_append.1 ht).imp_right fun ht => by rw [List.mem_singleton.1 ht]; rfl
  · exact .inl (htransports' ▸ hp)
  · obtain h | h := insert_map (s.create place) place s.peers.length
    · exact .inl (h ▸ he)
    · have he' : e ∈ ((s.create place).insert place s.peers.length).map := he
      rw [h] at he'
      exact (List.mem_append.1 he').imp_right List.mem_singleton.1
  · refine hp.append (fun q hq => htransports' ▸ hq) fun task ht => ?_
    rw [htasks']
    exact List.mem_append_left _ ht
  · rw [htasks']
    exact List.mem_append_right _ (List.mem_singleton_self _)
  · have hle : ((s.addSession place).map.map Prod.snd).count p ≤
        (s.map.map Prod.snd).count p + if s.peers.length = p then 1 else 0 :=
      insert_count (s.create place) place s.peers.length p
    rw [htasks', List.count_append]
    have hzero : [PeerTask.rebind s.peers.length].count (.insert p) = 0 := by simp
    have hold := hs.inserts p
    split_ifs at hle with hp
    · have := hs.fresh
      rw [hp] at this
      omega
    · omega

/-- What happens to peers that are there. -/
theorem Sound.move (hs : Sound s) (hpeers : t.peers = s.peers)
    (htasks : ∀ task ∈ t.tasks, s.Held task.peer) (htransports : ∀ p ∈ t.transports, s.Held p)
    (hmap : ∀ e ∈ t.map, e ∈ s.map ∨ ∃ x, s.peers[e.2]? = some x ∧ x.place = e.1)
    (hcarried : ∀ (p : ℕ) (x : Peer), s.peers[p]? = some x → x.lost = false → Carried s p →
      Carried t p)
    (hinserts : ∀ p, t.tasks.count (.insert p) + (t.map.map Prod.snd).count p ≤ 1) : Sound t := by
  have hlt : ∀ p, s.Held p → p < t.peers.length := by
    rintro p (hp | ⟨task, ht, rfl⟩)
    · exact hpeers ▸ hs.transports p hp
    · exact hpeers ▸ hs.tasks task ht
  refine ⟨fun task ht => hlt _ (htasks task ht), fun p hp => hlt p (htransports p hp),
    fun e he => ?_, hpeers ▸ hs.apart, fun p x hx hp => ?_, fun p x hx hl => ?_, hinserts⟩
  · rw [hpeers]
    exact (hmap e he).elim (hs.map e) id
  · refine hs.alive p x (hpeers ▸ hx) ?_
    obtain hp | ⟨task, ht, rfl⟩ := hp
    · exact htransports p hp
    · exact htasks task ht
  · exact hcarried p x (hpeers ▸ hx) hl (hs.carried p x (hpeers ▸ hx) hl)

theorem mem_eraseIdx_of_ne (hk : s.tasks[k]? = some task) {other : PeerTask}
    (h : other ∈ s.tasks) (hne : other ≠ task) : other ∈ s.tasks.eraseIdx k := by
  obtain ⟨j, hj⟩ := List.mem_iff_getElem?.1 h
  refine List.mem_eraseIdx_iff_getElem?.2 ⟨j, ?_, hj⟩
  rintro rfl
  rw [hk] at hj
  exact hne (Option.some.inj hj).symm

theorem count_eraseIdx (hk : s.tasks[k]? = some task) (p : ℕ) :
    (s.tasks.eraseIdx k).count (.insert p) + (if task = .insert p then 1 else 0) =
      s.tasks.count (.insert p) := by
  have := Counting.countP_eraseIdx (p := fun y => y == PeerTask.insert p) hk
  unfold List.count
  rw [← this]
  split_ifs with h <;> simp [h]

theorem held_of_drop (h : task ∈ s.tasks.eraseIdx k) : s.Held task.peer :=
  .inr ⟨task, List.mem_of_mem_eraseIdx h, rfl⟩

theorem Sound.insert (hs : Sound s) (hk : s.tasks[k]? = some (.insert p))
    (hx : s.peers[p]? = some x) :
    Sound ({ s with tasks := s.tasks.eraseIdx k }.insert x.place p) := by
  obtain ⟨hpeers, htransports, htasks⟩ :=
    insert_fields { s with tasks := s.tasks.eraseIdx k } x.place p
  refine hs.move hpeers (fun task ht => ?_) (fun q hq => .inl (htransports ▸ hq)) (fun e he => ?_)
    (fun q _ _ _ hq => ?_) fun q => ?_
  · rw [htasks] at ht
    exact held_of_drop ht
  · obtain h | h := insert_map { s with tasks := s.tasks.eraseIdx k } x.place p
    · exact .inl (h ▸ he)
    · rw [h] at he
      obtain he | he := List.mem_append.1 he
      · exact .inl he
      · rw [List.mem_singleton.1 he]
        exact .inr ⟨x, hx, rfl⟩
  · rw [Carried, htasks, htransports]
    exact hq.imp_right (Or.imp (fun h => mem_eraseIdx_of_ne hk h nofun)
      (Or.imp (fun h => mem_eraseIdx_of_ne hk h nofun) fun h => mem_eraseIdx_of_ne hk h nofun))
  · have hle := insert_count { s with tasks := s.tasks.eraseIdx k } x.place p q
    have hcount := count_eraseIdx hk q
    have hold := hs.inserts q
    simp only [PeerTask.insert.injEq] at hcount
    rw [htasks]
    show (s.tasks.eraseIdx k).count _ + _ ≤ 1
    have hle' : _ ≤ (s.map.map Prod.snd).count q + if p = q then 1 else 0 := hle
    omega

theorem Sound.rebind (hs : Sound s) (hk : s.tasks[k]? = some (.rebind p)) :
    Sound { s with
      tasks := s.tasks.eraseIdx k
      transports := s.transports ++ [p] } := by
  refine hs.move rfl (fun task ht => held_of_drop ht) (fun q hq => ?_) (fun _ he => .inl he)
    (fun q _ _ _ hq => ?_) fun q => ?_
  · obtain hq | hq := List.mem_append.1 hq
    · exact .inl hq
    · exact .inr ⟨_, List.mem_of_getElem? hk, (List.mem_singleton.1 hq).symm⟩
  · by_cases hpq : q = p
    · exact .inl (List.mem_append_right _ (List.mem_singleton.2 hpq))
    · exact hq.imp (List.mem_append_left _) (Or.imp
        (fun h => mem_eraseIdx_of_ne hk h fun he => hpq (PeerTask.rebind.inj he))
        (Or.imp (fun h => mem_eraseIdx_of_ne hk h nofun) fun h => mem_eraseIdx_of_ne hk h nofun))
  · have hcount := count_eraseIdx hk q
    have hold := hs.inserts q
    simp only [reduceCtorEq, ↓reduceIte, Nat.add_zero] at hcount
    show (s.tasks.eraseIdx k).count _ + (s.map.map Prod.snd).count q ≤ 1
    omega

theorem Sound.close (hs : Sound s) (hk : s.transports[k]? = some p) :
    Sound ({ s with transports := s.transports.eraseIdx k }.add (.transportLost p)) := by
  refine hs.move rfl (fun task ht => ?_) (fun q hq => .inl (List.mem_of_mem_eraseIdx hq))
    (fun _ he => .inl he) (fun q _ _ _ hq => ?_) fun q => ?_
  · obtain ht | ht := List.mem_append.1 ht
    · exact .inr ⟨task, ht, rfl⟩
    · rw [List.mem_singleton.1 ht]
      exact .inl (List.mem_of_getElem? hk)
  · by_cases hpq : q = p
    · refine .inr (.inr (.inl (List.mem_append_right _ ?_)))
      rw [hpq]
      exact List.mem_singleton_self _
    · refine hq.imp (fun h => ?_) (Or.imp (List.mem_append_left _)
        (Or.imp (List.mem_append_left _) (List.mem_append_left _)))
      obtain ⟨j, hj⟩ := List.mem_iff_getElem?.1 h
      refine List.mem_eraseIdx_iff_getElem?.2 ⟨j, ?_, hj⟩
      rintro rfl
      rw [hk] at hj
      exact hpq (Option.some.inj hj).symm
  · show (s.tasks ++ [PeerTask.transportLost p]).count _ + (s.map.map Prod.snd).count q ≤ 1
    simpa [List.count_append] using hs.inserts q

theorem Sound.stepTimeout (hs : Sound s) :
    Sound { s with map := s.map.filter fun e => s.usable e.2 } := by
  refine hs.move rfl (fun task ht => .inr ⟨task, ht, rfl⟩) (fun _ hq => .inl hq)
    (fun e he => .inl (List.mem_filter.1 he).1) (fun _ _ _ _ => id) fun q => ?_
  have hle : ((s.map.filter fun e => s.usable e.2).map Prod.snd).count q ≤
      (s.map.map Prod.snd).count q := (List.filter_sublist.map Prod.snd).count_le q
  exact Nat.le_trans (Nat.add_le_add_left hle _) (hs.inserts q)

/-- A peer is lost, or freed when nobody has it. -/
theorem Sound.setPeer (hs : Sound s) {f : Peer → Peer} (hplace : ∀ x, (f x).place = x.place)
    (halive : ∀ x, (f x).alive = true → x.alive = true)
    (hheld : s.Held p → ∀ x, x.alive = true → (f x).alive = true)
    (hcarried : ∀ x, s.peers[p]? = some x → (f x).lost = false → Carried s p) :
    Sound (s.setPeer p f) := by
  have hlen : (s.setPeer p f).peers.length = s.peers.length := List.length_modify ..
  have hpeer : ∀ {q : ℕ} {y : Peer}, (s.setPeer p f).peers[q]? = some y →
      ∃ x, s.peers[q]? = some x ∧ y.place = x.place ∧ (y.alive = true → x.alive = true) := by
    intro q y hy
    rw [setPeer_getElem?] at hy
    split_ifs at hy
    · obtain ⟨x, hx, rfl⟩ := Option.map_eq_some_iff.1 hy
      exact ⟨x, hx, hplace x, halive x⟩
    · exact ⟨y, hy, rfl, id⟩
  refine ⟨fun task ht => hlen ▸ hs.tasks task ht, fun q hq => hlen ▸ hs.transports q hq,
    fun e he => ?_, fun q r y z hy hz hya hza hyz => ?_, fun q y hy hq => ?_,
    fun q y hy hl => ?_, hs.inserts⟩
  · obtain ⟨x, hx, hxe⟩ := hs.map e he
    rw [setPeer_getElem?, hx]
    split_ifs
    · exact ⟨_, rfl, (hplace x).trans hxe⟩
    · exact ⟨x, rfl, hxe⟩
  · obtain ⟨y', hy', hyp, hya'⟩ := hpeer hy
    obtain ⟨z', hz', hzp, hza'⟩ := hpeer hz
    exact hs.apart q r y' z' hy' hz' (hya' hya) (hza' hza) (hyp ▸ hzp ▸ hyz)
  · rw [setPeer_getElem?] at hy
    split_ifs at hy with hpq
    · obtain ⟨x, hx, rfl⟩ := Option.map_eq_some_iff.1 hy
      exact hheld (hpq ▸ hq) x (hs.alive q x hx hq)
    · exact hs.alive q y hy hq
  · rw [setPeer_getElem?] at hy
    split_ifs at hy with hpq
    · obtain ⟨x, hx, rfl⟩ := Option.map_eq_some_iff.1 hy
      subst hpq
      exact hcarried x hx hl
    · exact hs.carried q y hy hl

theorem Sound.transportLost (hs : Sound s) (hk : s.tasks[k]? = some (.transportLost p)) :
    Sound ({ s with tasks := s.tasks.eraseIdx k }.transportLostNotify p x) := by
  refine hs.move rfl (fun task ht => ?_) (fun q hq => .inl hq)
    (fun e he => .inl (List.mem_filter.1 he).1) (fun q _ _ _ hq => ?_) fun q => ?_
  · obtain ht | ht := List.mem_append.1 ht
    · exact held_of_drop ht
    · rw [List.mem_singleton.1 ht]
      exact .inr ⟨_, List.mem_of_getElem? hk, rfl⟩
  · by_cases hpq : q = p
    · refine .inr (.inr (.inr (List.mem_append_right _ ?_)))
      rw [hpq]
      exact List.mem_singleton_self _
    · have hmem : ∀ {other : PeerTask}, other ∈ s.tasks → other ≠ .transportLost p →
          other ∈ s.tasks.eraseIdx k ++ [.forceLost p] :=
        fun h hne => List.mem_append_left _ (mem_eraseIdx_of_ne hk h hne)
      exact hq.imp_right (Or.imp (fun h => hmem h nofun)
        (Or.imp (fun h => hmem h fun he => hpq (PeerTask.transportLost.inj he))
          fun h => hmem h nofun))
  · have hle : ((s.map.filter fun e => e.1 != x.place).map Prod.snd).count q ≤
        (s.map.map Prod.snd).count q := (List.filter_sublist.map Prod.snd).count_le q
    have hcount := count_eraseIdx hk q
    simp only [reduceCtorEq, ↓reduceIte, Nat.add_zero] at hcount
    show (s.tasks.eraseIdx k ++ [PeerTask.forceLost p]).count (.insert q) +
      ((s.map.filter fun e => e.1 != x.place).map Prod.snd).count q ≤ 1
    have hold := hs.inserts q
    have hzero : [PeerTask.forceLost p].count (.insert q) = 0 := by simp
    rw [List.count_append]
    omega

theorem Sound.forceLost (hs : Sound s) (hk : s.tasks[k]? = some (.forceLost p)) :
    Sound ({ s with tasks := s.tasks.eraseIdx k }.forceLost p) := by
  have hlost : Sound (s.setPeer p fun x => { x with lost := true }) :=
    hs.setPeer (fun _ => rfl) (fun _ => id) (fun _ _ => id) nofun
  refine hlost.move rfl (fun task ht => held_of_drop ht) (fun q hq => .inl hq)
    (fun e he => .inl he) (fun q y hy hl hq => ?_) fun q => ?_
  · refine hq.imp_right (Or.imp (fun h => mem_eraseIdx_of_ne hk h nofun)
      (Or.imp (fun h => mem_eraseIdx_of_ne hk h nofun)
        fun h => mem_eraseIdx_of_ne hk h fun he => ?_))
    obtain rfl := PeerTask.forceLost.inj he
    rw [setPeer_getElem?, if_pos rfl] at hy
    obtain ⟨x, -, rfl⟩ := Option.map_eq_some_iff.1 hy
    cases hl
  · have hcount := count_eraseIdx hk q
    simp only [reduceCtorEq, ↓reduceIte, Nat.add_zero] at hcount
    show (s.tasks.eraseIdx k).count _ + (s.map.map Prod.snd).count q ≤ 1
    have hold := hs.inserts q
    omega

theorem Sound.step (hs : Sound s) (h : s.step a = some t) : Sound t := by
  cases a with
  | accepted place =>
    simp only [Peers.step] at h
    split_ifs at h with hv
    cases h
    exact hs.accepted hv
  | addSession place =>
    simp only [Peers.step] at h
    split_ifs at h with hv
    cases h
    exact hs.addSession hv
  | run k =>
    obtain ⟨task, hk, h⟩ := Option.bind_eq_some_iff.1 h
    cases task with
    | insert p =>
      obtain ⟨x, hx, rfl⟩ := Option.map_eq_some_iff.1 h
      exact hs.insert hk hx
    | rebind p =>
      cases h
      exact hs.rebind hk
    | transportLost p =>
      obtain ⟨x, -, rfl⟩ := Option.map_eq_some_iff.1 h
      exact hs.transportLost hk
    | forceLost p =>
      cases h
      exact hs.forceLost hk
  | close k =>
    obtain ⟨p, hk, rfl⟩ := Option.map_eq_some_iff.1 h
    exact hs.close hk
  | stepTimeout =>
    cases h
    exact hs.stepTimeout
  | free p =>
    simp only [Peers.step] at h
    split_ifs at h with hp
    cases h
    exact hs.setPeer (fun _ => rfl) nofun (fun hheld => absurd hheld hp)
      fun x hx hl => hs.carried p x hx hl

/-! ## Put into the map in time -/

/-- A peer is put into the map before `transport_lost_notify` comes to it. -/
def Ordered (s : Peers) : Act → Prop
  | .run k => ∀ p, s.tasks[k]? = some (.insert p) → Present s p
  | _ => True

theorem Sound.not_inserted (hs : Sound s) (h : .insert p ∈ s.tasks) : p ∉ s.map.map Prod.snd := by
  intro hp
  have := hs.inserts p
  have := List.count_pos_iff.2 h
  have := List.count_pos_iff.2 hp
  omega

theorem mem_eraseIdx_iff_of_ne (hk : s.tasks[k]? = some task) {other : PeerTask}
    (hne : other ≠ task) : other ∈ s.tasks.eraseIdx k ↔ other ∈ s.tasks :=
  ⟨List.mem_of_mem_eraseIdx, fun h => mem_eraseIdx_of_ne hk h hne⟩

/-- Nothing changes for the map. -/
theorem Exact.same (he : Exact s) (ht : Sound t) (hmap : t.map = s.map)
    (hpeers : ∀ q : ℕ, (t.peers[q]?).map Peer.lost = (s.peers[q]?).map Peer.lost)
    (htasks : ∀ q, .insert q ∈ t.tasks ↔ .insert q ∈ s.tasks)
    (hlost : ∀ q, .forceLost q ∈ t.tasks ↔ .forceLost q ∈ s.tasks) : Exact t := by
  refine exact_of_entries ht fun q => ?_
  rw [Present, hmap, hpeers, htasks, hlost]
  exact he.entries q

theorem lost_create (hpeers : t.peers = s.peers ++ [⟨place, false, true⟩]) (q : ℕ) :
    (t.peers[q]?).map Peer.lost =
      if q = s.peers.length then some false else (s.peers[q]?).map Peer.lost := by
  rw [hpeers, List.getElem?_append]
  split_ifs with hlt hq hq
  · omega
  · rfl
  · simp [hq]
  · rw [List.getElem?_eq_none (by simp; omega), List.getElem?_eq_none (by omega)]

theorem Exact.accepted (he : Exact s) (hs : Sound s) (hv : s.vacant place = true) :
    Exact (s.accepted place) := by
  refine exact_of_entries (hs.accepted hv) fun q => ?_
  have hmap : (s.accepted place).map = s.map := rfl
  have htasks : (s.accepted place).tasks = s.tasks ++ [.insert s.peers.length] := rfl
  rw [Present, lost_create (t := s.accepted place) rfl, hmap, htasks, he.entries, Present]
  by_cases hq : q = s.peers.length
  · simp [hq]
  · simp [hq]

theorem Exact.addSession (he : Exact s) (hs : Sound s) (hv : s.vacant place = true) :
    Exact (s.addSession place) := by
  have hfree : ∀ e ∈ s.map, e.1 ≠ place := by
    intro e hmem hplace
    obtain ⟨x, hx, hxe⟩ := hs.map e hmem
    obtain ⟨y, hy, -, ha⟩ := hs.usable ((he.entries e.2).1 (List.mem_map_of_mem hmem)).1
    rw [hx] at hy
    cases hy
    have := List.all_eq_true.1 hv x (List.mem_of_getElem? hx)
    simp [ha, hxe, hplace] at this
  have hinsert := insert_of_not_mem (s := s.create place) (p := s.peers.length) hfree
  have hmap : (s.addSession place).map = s.map ++ [(place, s.peers.length)] :=
    congrArg Peers.map hinsert
  have htasks : (s.addSession place).tasks = s.tasks ++ [.rebind s.peers.length] :=
    congrArg (· ++ [PeerTask.rebind s.peers.length])
      (insert_fields (s.create place) place s.peers.length).2.2
  have hpeers : (s.addSession place).peers = s.peers ++ [⟨place, false, true⟩] :=
    congrArg Peers.peers hinsert
  refine exact_of_entries (hs.addSession hv) fun q => ?_
  rw [Present, lost_create hpeers, hmap, htasks, List.map_append, List.mem_append, he.entries,
    Present]
  have hfresh := List.count_eq_zero.1 hs.fresh.1
  have hlost : PeerTask.forceLost s.peers.length ∉ s.tasks :=
    fun h => Nat.lt_irrefl _ (hs.tasks _ h)
  by_cases hq : q = s.peers.length
  · subst hq
    simp [hfresh, hlost]
  · simp [hq]

theorem Exact.insert (he : Exact s) (hs : Sound s) (hk : s.tasks[k]? = some (.insert p))
    (hx : s.peers[p]? = some x) (hp : Present s p) :
    Exact ({ s with tasks := s.tasks.eraseIdx k }.insert x.place p) := by
  have ha : x.alive = true := hs.alive p x hx (.inr ⟨_, List.mem_of_getElem? hk, rfl⟩)
  have hnot := hs.not_inserted (List.mem_of_getElem? hk)
  have hfree : ∀ e ∈ s.map, e.1 ≠ x.place := fun e hmem hplace =>
    hnot (he.peer_eq hs hx ha hmem hplace ▸ List.mem_map_of_mem hmem)
  have hinsert := insert_of_not_mem (s := { s with tasks := s.tasks.eraseIdx k }) (p := p) hfree
  refine exact_of_entries (hs.insert hk hx) fun q => ?_
  rw [hinsert]
  have hpresent : Present { s with
      tasks := s.tasks.eraseIdx k
      map := s.map ++ [(x.place, p)] } q ↔ Present s q :=
    and_congr_right fun _ => not_congr (mem_eraseIdx_iff_of_ne hk (by simp))
  rw [hpresent]
  show q ∈ (s.map ++ [(x.place, p)]).map Prod.snd ↔ _ ∧ PeerTask.insert q ∉ s.tasks.eraseIdx k
  rw [List.map_append, List.mem_append, he.entries]
  by_cases hq : q = p
  · subst hq
    have hgone : PeerTask.insert q ∉ s.tasks.eraseIdx k := by
      rw [← List.count_eq_zero]
      have := count_eraseIdx hk q
      have := hs.inserts q
      rw [if_pos rfl] at *
      omega
    simp [hp, hgone]
  · rw [mem_eraseIdx_iff_of_ne hk fun h => hq (PeerTask.insert.inj h)]
    simp [hq]

theorem Exact.transportLost (he : Exact s) (hs : Sound s)
    (hk : s.tasks[k]? = some (.transportLost p)) (hx : s.peers[p]? = some x) :
    Exact ({ s with tasks := s.tasks.eraseIdx k }.transportLostNotify p x) := by
  have ha : x.alive = true := hs.alive p x hx (.inr ⟨_, List.mem_of_getElem? hk, rfl⟩)
  refine exact_of_entries (hs.transportLost hk) fun q => ?_
  show q ∈ (s.map.filter fun e => e.1 != x.place).map Prod.snd ↔
    ((s.peers[q]?).map Peer.lost = some false ∧
      PeerTask.forceLost q ∉ s.tasks.eraseIdx k ++ [PeerTask.forceLost p]) ∧
      PeerTask.insert q ∉ s.tasks.eraseIdx k ++ [PeerTask.forceLost p]
  have hinsert : PeerTask.insert q ∈ s.tasks.eraseIdx k ++ [PeerTask.forceLost p] ↔
      PeerTask.insert q ∈ s.tasks := by
    rw [List.mem_append, mem_eraseIdx_iff_of_ne hk (by simp)]
    simp
  rw [hinsert]
  by_cases hne : p = q
  · subst hne
    -- the entry of the peer goes, whatever `force_lost` is about to say
    refine iff_of_false (fun hmem => ?_) (by simp)
    obtain ⟨e, hmem, hep⟩ := List.mem_map.1 hmem
    obtain ⟨hmem, hplace⟩ := List.mem_filter.1 hmem
    obtain ⟨y, hy, hye⟩ := hs.map e hmem
    rw [hep, hx] at hy
    cases hy
    simp [hye] at hplace
  · have hforce : PeerTask.forceLost q ∈ s.tasks.eraseIdx k ++ [PeerTask.forceLost p] ↔
        PeerTask.forceLost q ∈ s.tasks := by
      rw [List.mem_append, mem_eraseIdx_iff_of_ne hk (by simp)]
      simp [Ne.symm hne]
    rw [hforce]
    refine Iff.trans ⟨fun hq => ?_, fun hq => ?_⟩ (he.entries q)
    · obtain ⟨e, hmem, rfl⟩ := List.mem_map.1 hq
      exact List.mem_map_of_mem (List.mem_filter.1 hmem).1
    · obtain ⟨e, hmem, rfl⟩ := List.mem_map.1 hq
      refine List.mem_map_of_mem (List.mem_filter.2 ⟨hmem, ?_⟩)
      rw [bne_iff_ne]
      exact fun hplace => hne (he.peer_eq hs hx ha hmem hplace).symm

/-- A peer is lost that is not in the map any more. -/
theorem Exact.forceLost (he : Exact s) (hs : Sound s) (hk : s.tasks[k]? = some (.forceLost p)) :
    Exact ({ s with tasks := s.tasks.eraseIdx k }.forceLost p) := by
  refine exact_of_entries (hs.forceLost hk) fun q => ?_
  show q ∈ s.map.map Prod.snd ↔
    (((s.setPeer p fun x => { x with lost := true }).peers[q]?).map Peer.lost = some false ∧
      PeerTask.forceLost q ∉ s.tasks.eraseIdx k) ∧ PeerTask.insert q ∉ s.tasks.eraseIdx k
  have hinsert : PeerTask.insert q ∈ s.tasks.eraseIdx k ↔ PeerTask.insert q ∈ s.tasks :=
    mem_eraseIdx_iff_of_ne hk (by simp)
  rw [hinsert, setPeer_getElem?, he.entries q]
  by_cases hne : p = q
  · subst hne
    have hmem := List.mem_of_getElem? hk
    refine iff_of_false (fun h => h.1.2 hmem) fun h => ?_
    have hl := h.1.1
    rw [if_pos rfl, Option.map_map] at hl
    obtain ⟨x, -, hl⟩ := Option.map_eq_some_iff.1 hl
    cases hl
  · rw [if_neg hne, mem_eraseIdx_iff_of_ne hk (by simpa using Ne.symm hne)]
    exact Iff.rfl

theorem Exact.step (he : Exact s) (hs : Sound s) (ha : Ordered s a) (h : s.step a = some t) :
    Exact t := by
  have ht := hs.step h
  cases a with
  | accepted place =>
    simp only [Peers.step] at h
    split_ifs at h with hv
    cases h
    exact he.accepted hs hv
  | addSession place =>
    simp only [Peers.step] at h
    split_ifs at h with hv
    cases h
    exact he.addSession hs hv
  | run k =>
    obtain ⟨task, hk, h⟩ := Option.bind_eq_some_iff.1 h
    cases task with
    | insert p =>
      obtain ⟨x, hx, rfl⟩ := Option.map_eq_some_iff.1 h
      exact he.insert hs hk hx (ha p hk)
    | rebind p =>
      cases h
      exact he.same ht rfl (fun _ => rfl) (fun q => mem_eraseIdx_iff_of_ne hk nofun)
        fun q => mem_eraseIdx_iff_of_ne hk nofun
    | transportLost p =>
      obtain ⟨x, hx, rfl⟩ := Option.map_eq_some_iff.1 h
      exact he.transportLost hs hk hx
    | forceLost p =>
      cases h
      exact he.forceLost hs hk
  | close k =>
    obtain ⟨p, hk, rfl⟩ := Option.map_eq_some_iff.1 h
    exact he.same ht rfl (fun _ => rfl) (fun q => by simp [add]) fun q => by simp [add]
  | stepTimeout =>
    cases h
    refine he.same ht (List.filter_eq_self.2 fun e hmem => ?_) (fun _ => rfl) (fun _ => Iff.rfl)
      fun _ => Iff.rfl
    obtain ⟨x, hx, hl, ha⟩ := hs.usable ((he.entries e.2).1 (List.mem_map_of_mem hmem)).1
    simp [Peers.usable, hx, hl, ha]
  | free p =>
    simp only [Peers.step] at h
    split_ifs at h
    cases h
    refine he.same ht rfl (fun q => ?_) (fun _ => Iff.rfl) fun _ => Iff.rfl
    rw [setPeer_getElem?]
    split_ifs
    · rw [Option.map_map]
      rfl
    · rfl

/-- What comes too late stays in the map. -/
theorem Exact.ordered (he : Exact s) (hs : Sound s) (h : s.step a = some t) (ht : Exact t) :
    Ordered s a := by
  cases a with
  | run k =>
    intro p hk
    have h' : { s with tasks := s.tasks.eraseIdx k }.run (.insert p) = some t := by
      rw [Peers.step, hk] at h
      exact h
    obtain ⟨x, hx, rfl⟩ := Option.map_eq_some_iff.1 h'
    have hx' : s.peers[p]? = some x := hx
    have ha : x.alive = true := hs.alive p x hx' (.inr ⟨_, List.mem_of_getElem? hk, rfl⟩)
    have hnot := hs.not_inserted (List.mem_of_getElem? hk)
    have hfree : ∀ e ∈ s.map, e.1 ≠ x.place := fun e hmem hplace =>
      hnot (he.peer_eq hs hx' ha hmem hplace ▸ List.mem_map_of_mem hmem)
    have hinsert := insert_of_not_mem (s := { s with tasks := s.tasks.eraseIdx k }) (p := p) hfree
    have hmem : p ∈ ({ s with tasks := s.tasks.eraseIdx k }.insert x.place p).map.map Prod.snd := by
      rw [hinsert]
      exact List.mem_map_of_mem (List.mem_append_right _ (List.mem_singleton_self (x.place, p)))
    have hpresent := ((ht.entries p).1 hmem).1
    rw [hinsert] at hpresent
    exact ⟨hpresent.1, fun h => hpresent.2 (mem_eraseIdx_of_ne hk h (by simp))⟩
  | accepted _ => exact trivial
  | addSession _ => exact trivial
  | close _ => exact trivial
  | stepTimeout => exact trivial
  | free _ => exact trivial

theorem sound_init : Sound init :=
  ⟨nofun, nofun, nofun, nofun, nofun, nofun, fun _ => Nat.zero_le 1⟩

theorem exact_init : Exact init := exact_of_entries sound_init fun _ => ⟨nofun, nofun⟩

/-- The map and what is visited stay right in just those runs where no peer is put into the map when
`transport_lost_notify` has already come to it. Peers of `subsys::add_session` never are. -/
theorem exact_iff (h : Run step Free init as s) :
    (∀ pre post u, as = pre ++ post → Run step Free init pre u → Exact u) ↔
      Run step Ordered init as s :=
  h.holds_iff (I := fun s => Exact s ∧ Sound s) (fun _ hs => hs.1)
    (fun _ _ _ hs ha hst => ⟨hs.1.step hs.2 ha hst, hs.2.step hst⟩)
    (fun _ _ _ hs hst ht => hs.1.ordered hs.2 hst ht) ⟨exact_init, sound_init⟩

/-- A client is gone before it is put into the map, and another one is accepted at its place. -/
def late : List Act := [.addSession 16, .run 0, .close 0, .run 0, .run 0, .free 0, .accepted 16,
  .close 0, .run 1, .run 0, .run 0, .free 1, .accepted 16, .run 0]

theorem exact_iff_late : ∃ s, Run step Free init late s ∧ s.transports = [2] ∧ s.tasks = [] ∧
    s.map = [(16, 1)] ∧ s.eachPeer = [] ∧
    ((∀ pre post u, late = pre ++ post → Run step Free init pre u → Exact u) ↔
      Run step Ordered init late s) :=
  have hrun : Run step Free init late _ := Machine.exec_run rfl
  ⟨_, hrun, rfl, rfl, rfl, rfl, exact_iff hrun⟩

end Peers

end Kumofs.Rpc
