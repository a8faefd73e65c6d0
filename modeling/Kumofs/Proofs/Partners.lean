import Kumofs.Lib.Mirror
import Kumofs.Proofs.Joined
import Kumofs.Sample

/-!
# Partners agree

`HashSpaceSync` mirrors the hash spaces of two managers: each sends the partner what it changes
them to, and takes what is not older than its own. That makes them equal in the end only if no
change bears another one's clocktime or an older one than it replaces, and none leaves a hash space
without an active node, which the partner never takes.
-/

namespace Kumofs

open Newest Mirror

/-- The two hash spaces of a manager. -/
inductive Space
  | write
  | read
  deriving DecidableEq

def Manager.space (m : Manager) : Space → HashSpace
  | .write => m.whs
  | .read => m.rhs

def PartnerMsg.space? : PartnerMsg → Space → Option Seed
  | .hashSpaceSync wseed _ _, .write => some wseed
  | .hashSpaceSync _ rseed _, .read => some rseed
  | _, _ => none

/-- The hash spaces of one kind among messages. -/
def syncs (κ : Space) (msgs : List PartnerMsg) : List Seed := msgs.filterMap (·.space? κ)

theorem syncs_append (κ : Space) (l l' : List PartnerMsg) :
    syncs κ (l ++ l') = syncs κ l ++ syncs κ l' :=
  List.filterMap_append

theorem getLastD_append (ws : List Seed) : ∀ (vs : List Seed) (d : Seed),
    (vs ++ ws).getLastD d = ws.getLastD (vs.getLastD d)
  | [], _ => rfl
  | v :: vs, d => by
    rw [List.cons_append, List.getLastD_cons, List.getLastD_cons, getLastD_append ws vs]

namespace HashSpace

theorem mem_setActive_of_ne {a : Address} {x : Bool} {n : Node} :
    ∀ {ns : List Node}, n ∈ ns → n.addr ≠ a → n ∈ setActive a x ns
  | [], h, _ => absurd h List.not_mem_nil
  | k :: ns, h, hn => by
    unfold setActive
    split_ifs with hk
    · rcases List.mem_cons.1 h with rfl | h
      · exact absurd (eq_of_beq hk) hn
      · exact List.mem_cons_of_mem _ h
    · rcases List.mem_cons.1 h with rfl | h
      · exact List.mem_cons_self
      · exact List.mem_cons_of_mem _ (mem_setActive_of_ne h hn)

theorem faultServer_of_not {hs : HashSpace} {ct : ClockTime} {a : Address}
    (h : (hs.faultServer ct a).2 = false) : (hs.faultServer ct a).1 = hs := by
  unfold faultServer at h ⊢
  split_ifs at h ⊢
  rfl

end HashSpace

/-! ## The changes a handler makes -/

namespace Manager

variable {hash : Bytes → UInt64} {m m' : Manager} {κ : Space} {r : Manager × List Out}
  {vs ws : List Seed}

/-- The handler sends the partner these hash spaces, and leaves the manager with the last. -/
structure Script (κ : Space) (m : Manager) (r : Manager × List Out) (vs : List Seed) : Prop where
  sent : syncs κ (Managers.partnerMsgs r.2) = vs
  held : (r.1.space κ).seed = vs.getLastD (m.space κ).seed

theorem Script.andThen {f : Manager → Manager × List Out} (h : Script κ m r vs)
    (h' : Script κ r.1 (f r.1) ws) : Script κ m (andThen r f) (vs ++ ws) := by
  refine ⟨?_, ?_⟩
  · simp only [Manager.andThen, Managers.partnerMsgs, List.filterMap_append]
    rw [syncs_append]
    exact congrArg₂ _ h.sent h'.sent
  · rw [getLastD_append, ← h.held]
    exact h'.held

theorem Script.andThen_nil {f : Manager → Manager × List Out} (h : Script κ m r vs)
    (h' : Script κ r.1 (f r.1) []) : Script κ m (Manager.andThen r f) vs := by
  have ha := h.andThen h'
  rwa [List.append_nil] at ha

theorem Script.congr (h : Script κ m r vs) (he : (m'.space κ).seed = (m.space κ).seed) :
    Script κ m' r vs :=
  ⟨h.sent, by rw [he]; exact h.held⟩

theorem script_nil (h : (m'.space κ).seed = (m.space κ).seed) : Script κ m (m', []) [] :=
  ⟨rfl, h⟩

theorem script_sync (hc : m'.partner.connectable) :
    Script κ m m'.syncHashSpacePartner [(m'.space κ).seed] := by
  unfold syncHashSpacePartner
  rw [if_pos hc]
  cases κ with
  | write => exact ⟨rfl, rfl⟩
  | read => exact ⟨rfl, rfl⟩

theorem script_startReplace (full : Bool) : Script κ m (m.startReplace full) [] := by
  cases κ with
  | write => exact ⟨rfl, rfl⟩
  | read => exact ⟨rfl, rfl⟩

theorem script_delegateReplace : Script κ m m.delegateReplace [] := by
  cases κ with
  | write => exact ⟨rfl, rfl⟩
  | read => exact ⟨rfl, rfl⟩

theorem script_onElectionResult (call : ℕ) (res : Option Bool) :
    Script κ m (m.onElectionResult call res) [] := by
  have h := script_startReplace (κ := κ) (m := { m with calls := m.calls.erase call }) false
  unfold onElectionResult
  simp only []
  split_ifs
  · exact ⟨h.sent, by cases κ <;> exact h.held⟩
  · exact script_nil (by cases κ <;> rfl)

theorem script_replaceCopyEnd (replaceTime : ClockTime) (adjustClock : UInt32) (a : Address) :
    Script κ m (m.replaceCopyEnd replaceTime adjustClock a) [] := by
  unfold replaceCopyEnd
  simp only []
  split_ifs
  · exact ⟨rfl, by cases κ <;> rfl⟩
  · exact script_nil (by cases κ <;> rfl)

/-! ### What a change must be -/

variable (C : Set ClockTime)

/-- The nodes and clocktime `hs` is changed to: the clocktime is newer, and no hash space of `S`
bears it with other nodes. -/
def Fresh (S : List Seed) (hs : HashSpace) (v : Seed) : Prop :=
  v.clocktime ∈ C ∧ hs.clocktime < v.clocktime ∧ ∀ y ∈ S, y.clocktime = v.clocktime → y = v

def AttachOk (hash : Bytes → UInt64) (S : List Seed) (m : Manager) : Prop :=
  m.liveNewServers ≠ [] →
    Fresh C S m.whs ⟨(attachAll hash m.nextClocktime m.whs m.newServers).nodes, m.nextClocktime⟩

def DetachOk (S : List Seed) (m : Manager) : Prop :=
  m.whs.nodes.any (!·.active) → Fresh C S m.whs ⟨m.whs.nodes.filter (·.active), m.nextClocktime⟩

def AttachDetachOk (hash : Bytes → UInt64) (S : List Seed) (m : Manager) : Prop :=
  AttachOk C hash S m ∧ DetachOk C S (m.attachNewServers hash).1

/-- The hash space has an active node besides the server it loses. -/
def FaultOk (S : List Seed) (hs : HashSpace) (a : Address) (ct : ClockTime) : Prop :=
  hs.serverIsInclude a →
    Fresh C S hs ⟨HashSpace.setActive a false hs.nodes, ct⟩ ∧
      hs.nodes.any fun n => n.active && n.addr ≠ a

def PublishOk (S : List Seed) (m : Manager) : Prop :=
  ¬ m.whs.clocktime < m.rhs.clocktime ∧ ∀ y ∈ S, y.clocktime = m.whs.clocktime → y = m.whs.seed

section Decidable

variable [DecidablePred (· ∈ C)] {S : List Seed} {hs : HashSpace} {v : Seed} {a : Address}
  {ct : ClockTime}

instance : Decidable (Fresh C S hs v) := inferInstanceAs (Decidable (_ ∧ _ ∧ ∀ y ∈ S, _))

instance : Decidable (AttachOk C hash S m) := inferInstanceAs (Decidable (_ ≠ [] → _))

instance : Decidable (DetachOk C S m) := inferInstanceAs (Decidable (_ = true → _))

instance : Decidable (AttachDetachOk C hash S m) := inferInstanceAs (Decidable (_ ∧ _))

instance : Decidable (FaultOk C S hs a ct) := inferInstanceAs (Decidable (_ = true → _ ∧ _ = true))

instance : Decidable (PublishOk S m) := inferInstanceAs (Decidable (¬ _ ∧ ∀ y ∈ S, _))

end Decidable

/-! ### What the changes are -/

theorem attachAll_clocktime {ct : ClockTime} {b : Address} :
    ∀ {ns : List WeakNode} {whs : HashSpace}, ⟨b, false⟩ ∈ ns →
      (attachAll hash ct whs ns).clocktime = ct
  | [], _, h => absurd h List.not_mem_nil
  | n :: ns, whs, h => by
    -- the rest of the loop leaves the hash space or stamps it
    have hrest : ∀ hs : HashSpace, hs.clocktime = ct →
        (attachAll hash ct hs ns).clocktime = ct := by
      intro hs hct
      rcases attachAll_cases hash ct ns hs with h | h
      · rw [h, hct]
      · exact h
    unfold attachAll
    rcases List.mem_cons.1 h with rfl | h
    · rw [if_neg (by simp)]
      split_ifs with hi
      · refine hrest _ ?_
        unfold HashSpace.recoverServer
        rw [if_pos hi]
        rfl
      · exact hrest _ rfl
    · split_ifs
      · exact attachAll_clocktime h
      · exact attachAll_clocktime h
      · exact attachAll_clocktime h

theorem attachAll_of_expired {ct : ClockTime} : ∀ {ns : List WeakNode} {whs : HashSpace},
    (∀ b, ⟨b, false⟩ ∉ ns) → attachAll hash ct whs ns = whs
  | [], _, _ => rfl
  | n :: ns, whs, h => by
    have hn : n.expired = true := by
      by_contra hn
      refine h n.addr (List.mem_cons.2 (.inl ?_))
      rw [Bool.not_eq_true] at hn
      rw [← hn]
    unfold attachAll
    rw [if_pos hn]
    exact attachAll_of_expired fun b hb => h b (List.mem_cons_of_mem _ hb)

theorem not_empty_of_serverIsActive {hs : HashSpace} {b : Address} (h : hs.serverIsActive b) :
    hs.seed.empty = false := by
  unfold HashSpace.serverIsActive at h
  obtain ⟨n, hn, hact⟩ := (Option.any_eq_true _ _).1 h
  have hmem := List.mem_of_find?_eq_some hn
  show (!hs.nodes.any (·.active)) = false
  rw [Bool.not_eq_false', List.any_eq_true]
  exact ⟨n, hmem, hact⟩

/-- The nodes and the clocktime that `attach_new_servers` leaves. -/
theorem attachAll_seed (hn : m.liveNewServers ≠ []) :
    (attachAll hash m.nextClocktime m.whs m.newServers).seed =
        ⟨(attachAll hash m.nextClocktime m.whs m.newServers).nodes, m.nextClocktime⟩ ∧
      (attachAll hash m.nextClocktime m.whs m.newServers).seed.empty = false := by
  obtain ⟨b, hb⟩ := List.exists_mem_of_ne_nil _ hn
  have hb := mem_liveNewServers.1 hb
  refine ⟨?_, not_empty_of_serverIsActive (serverIsActive_attachAll_new hb)⟩
  show Seed.mk _ (attachAll hash m.nextClocktime m.whs m.newServers).clocktime = _
  rw [attachAll_clocktime hb]

end Manager

/-- The invariant of two mirrored hash spaces, and the changes it allows. -/
abbrev Mirrored (C : Set ClockTime) : Pair Seed → Prop :=
  Inv Seed.clocktime Seed.empty C HashSpace.init.seed

abbrev Admits (C : Set ClockTime) (p : Pair Seed) (i : Bool) (v : Seed) : Prop :=
  Allowed Seed.clocktime Seed.empty C HashSpace.init.seed p i v

namespace Manager

variable {hash : Bytes → UInt64} {m : Manager} {κ : Space} {C : Set ClockTime} {p : Pair Seed}
  {i : Bool} {S : List Seed}

section Changes

variable (hC : StrictTotal C) (h : Mirrored C p) (hheld : p.held i = (m.space κ).seed)

include hC h

theorem admits_of_fresh {hs : HashSpace} {v : Seed} (hheld : p.held i = hs.seed)
    (hS : ∀ y, p.InPlay y → y ∈ S ∨ y.clocktime = hs.clocktime) (hf : Fresh C S hs v)
    (hv : v.empty = false) : Admits C p i v := by
  obtain ⟨hvC, hlt, hown⟩ := hf
  have hC' : hs.clocktime ∈ C := by
    have := h.stamped _ (Pair.inPlay_held p i)
    rwa [hheld] at this
  refine ⟨hvC, ?_, fun y hy hct => ?_, fun hb => ?_⟩
  · rw [hheld]
    exact fun hlt' => hC.irrefl _ hC' (hC.trans _ hC' _ hvC _ hC' hlt hlt')
  · rcases hS y hy with hy | hy
    · exact hown y hy hct
    · rw [hy] at hct
      rw [← hct] at hlt
      exact absurd hlt (hC.irrefl _ hC')
  · rw [hv] at hb
    cases hb

include hheld

theorem exists_attachNewServers (hc : m.partner.connectable)
    (hS : κ = .write → ∀ y, p.InPlay y → y ∈ S) (hok : AttachOk C hash S m) :
    ∃ v, Script κ m (m.attachNewServers hash) [v] ∧ Admits C p i v := by
  refine ⟨_, @script_sync m { m.clockIncr with
    whs := attachAll hash m.nextClocktime m.whs m.newServers, newServers := [] } κ hc, ?_⟩
  cases κ with
  | read =>
    show Admits C p i m.rhs.seed
    have hself := h.allowed_held hC i
    rwa [hheld] at hself
  | write =>
    show Admits C p i (attachAll hash m.nextClocktime m.whs m.newServers).seed
    by_cases hn : m.liveNewServers = []
    · have hnone : ∀ b, ⟨b, false⟩ ∉ m.newServers := fun b hb => by
        rw [← mem_liveNewServers, hn] at hb
        exact absurd hb List.not_mem_nil
      have hself := h.allowed_held hC i
      rw [attachAll_of_expired hnone]
      rwa [hheld] at hself
    · obtain ⟨hseed, hne⟩ := @attachAll_seed hash m hn
      rw [hseed] at hne ⊢
      exact admits_of_fresh hC h hheld (fun y hy => .inl (hS rfl y hy)) (hok hn) hne

theorem exists_detachFaultServers (hc : m.partner.connectable)
    (hS : κ = .write → ∀ y, p.InPlay y → y ∈ S ∨ y.clocktime = m.whs.clocktime)
    (hok : DetachOk C S m) :
    ∃ v, Script κ m (m.detachFaultServers hash) [v] ∧ Admits C p i v := by
  refine ⟨_, @script_sync m { m.clockIncr with
    whs := (m.whs.removeFaultServers hash m.nextClocktime).1 } κ hc, ?_⟩
  have hself := h.allowed_held hC i
  rw [hheld] at hself
  cases κ with
  | read => exact hself
  | write =>
    show Admits C p i (m.whs.removeFaultServers hash m.nextClocktime).1.seed
    unfold HashSpace.removeFaultServers
    split_ifs with hf
    · refine admits_of_fresh hC h hheld (hS rfl) (hok hf) ?_
      -- a hash space with a node has an active one
      by_contra hb
      have hblank : m.whs.seed.empty = true := by
        by_contra hne
        rw [Bool.not_eq_true] at hne
        simp only [Seed.empty, HashSpace.seed, Bool.not_eq_false', List.any_eq_true] at hne
        obtain ⟨n, hn, hact⟩ := hne
        apply hb
        simp only [Seed.empty, Bool.not_eq_false', List.any_eq_true]
        exact ⟨n, List.mem_filter.2 ⟨hn, hact⟩, hact⟩
      have hinit := h.notBlank _ (Pair.inPlay_held p i) (by rw [hheld]; exact hblank)
      rw [hheld] at hinit
      have hnil : m.whs.nodes = [] := congrArg Seed.nodes hinit
      rw [hnil] at hf
      cases hf
    · exact hself

theorem exists_attachDetach (h₀ : ClockTime.zero ∈ C) (hc : m.partner.connectable)
    (hS : κ = .write → ∀ y, p.InPlay y → y ∈ S) (hok : AttachDetachOk C hash S m) :
    ∃ vs, Script κ m (andThen (m.attachNewServers hash) (detachFaultServers hash)) vs ∧
      AllowedAll Seed.clocktime Seed.empty C HashSpace.init.seed i p vs := by
  obtain ⟨v, hv, hav⟩ := exists_attachNewServers hC h hheld hc hS hok.1
  have hp : Mirrored C (p.change i v) := h.change hC h₀ hav
  have hheld' : (p.change i v).held i = ((m.attachNewServers hash).1.space κ).seed := by
    rw [Pair.change_held, hv.held]
    rfl
  obtain ⟨w, hw, haw⟩ := @exists_detachFaultServers hash _ κ C _ i S hC hp hheld'
    (by rw [quiet_attachNewServers.partner]; exact hc)
    (by
      rintro rfl y hy
      rcases hy.of_change with rfl | hy
      · right
        rw [Pair.change_held] at hheld'
        rw [hheld']
        rfl
      · exact .inl (hS rfl y hy)) hok.2
  exact ⟨[v] ++ [w], hv.andThen hw, hav, haw, trivial⟩

/-- A loss, where each hash space that has the server keeps an active node. -/
theorem exists_removeServerLocked {a : Address} {ct : ClockTime} (hc : m.partner.connectable)
    (hS : ∀ y, p.InPlay y → y ∈ S) (hok : FaultOk C S (m.space κ) a ct) :
    ∃ vs, Script κ m (m.removeServerLocked a ct) vs ∧
      AllowedAll Seed.clocktime Seed.empty C HashSpace.init.seed i p vs := by
  let m' : Manager := { m with
    removing := m.removing.erase (a, ct)
    whs := (m.whs.faultServer ct a).1
    rhs := (m.rhs.faultServer ct a).1 }
  have hspace : m'.space κ = ((m.space κ).faultServer ct a).1 := by cases κ <;> rfl
  have hself := h.allowed_held hC i
  rw [hheld] at hself
  have hadm : Admits C p i (m'.space κ).seed := by
    rw [hspace]
    unfold HashSpace.faultServer
    split_ifs with hi
    · obtain ⟨hf, hne⟩ := hok hi
      refine admits_of_fresh hC h hheld (fun y hy => .inl (hS y hy)) hf ?_
      obtain ⟨n, hn, hact⟩ := List.any_eq_true.1 hne
      simp only [Bool.and_eq_true, decide_eq_true_eq] at hact
      simp only [Seed.empty, Bool.not_eq_false', List.any_eq_true]
      exact ⟨n, HashSpace.mem_setActive_of_ne hn hact.2, hact.1⟩
    · exact hself
  -- what `remove_server` does after that touches neither hash space nor the partner
  have hrest : ∀ m₁ : Manager, Script κ m₁
      (if m₁.autoReplace then
        (({ m₁ with newServers := m₁.newServers.filter fun n => !n.expired && n.addr ≠ a } :
          Manager).delayedReplaceElection, [])
      else ({ m₁ with
        newServers := m₁.newServers.filter fun n => !n.expired && n.addr ≠ a
        invalidating := m₁.invalidating + 1 }, [])) [] := by
    intro m₁
    split_ifs
    · exact script_nil (by cases κ <;> rfl)
    · exact script_nil (by cases κ <;> rfl)
  by_cases hch : ((m.whs.faultServer ct a).2 || (m.rhs.faultServer ct a).2) = true
  · have hf : Script κ m (faultServer ct a { m with removing := m.removing.erase (a, ct) })
        [(m'.space κ).seed] := by
      unfold faultServer
      simp only []
      rw [if_pos hch]
      have h1 : Script κ m m'.syncHashSpacePartner [(m'.space κ).seed] := script_sync hc
      have h2 := h1.andThen_nil (f := syncHashSpaceServers) ⟨rfl, by cases κ <;> rfl⟩
      exact h2.andThen_nil (f := pushHashSpaceClients) ⟨rfl, by cases κ <;> rfl⟩
    exact ⟨_, hf.andThen (hrest _), hadm, trivial⟩
  · have hf : Script κ m (faultServer ct a { m with removing := m.removing.erase (a, ct) }) [] := by
      unfold faultServer
      simp only []
      rw [if_neg hch]
      refine script_nil ?_
      show (m'.space κ).seed = (m.space κ).seed
      rw [Bool.not_eq_true, Bool.or_eq_false_iff] at hch
      cases κ with
      | write => exact congrArg HashSpace.seed (HashSpace.faultServer_of_not hch.1)
      | read => exact congrArg HashSpace.seed (HashSpace.faultServer_of_not hch.2)
    exact ⟨_, hf.andThen (hrest _), trivial⟩

end Changes

theorem script_publish (hc : m.partner.connectable) : Script κ m m.publish [m.whs.seed] := by
  have h := @script_sync m { m with rhs := m.whs, finishing := false } κ hc
  have hw : (({ m with rhs := m.whs, finishing := false } : Manager).space κ).seed =
      m.whs.seed := by
    cases κ <;> rfl
  rw [hw] at h
  exact ⟨h.sent, h.held⟩

/-- `publish` makes the manager's `whs` its `rhs`. -/
theorem admits_publish {q : Pair Seed} (h : Mirrored C p) (hw : p.held i = m.whs.seed)
    (hr : q.held i = m.rhs.seed) (hS : ∀ y, q.InPlay y → y ∈ S) (hok : PublishOk S m) :
    Admits C q i m.whs.seed := by
  have hin := Pair.inPlay_held p i
  rw [hw] at hin
  refine ⟨h.stamped _ hin, ?_, fun y hy => hok.2 y (hS y hy), h.notBlank _ hin⟩
  rw [hr]
  exact hok.1

end Manager

/-! ## Two managers -/

namespace Managers

open Manager

variable {hash : Bytes → UInt64} {s t : Managers} {a : Act} {κ : Space} {C : Set ClockTime}

/-- The hash spaces of one kind that the managers hold and that are on their way. -/
def mirror (κ : Space) (s : Managers) : Pair Seed :=
  ⟨fun i => ((s.mgr i).space κ).seed, fun i => syncs κ (s.inbox i)⟩

def inPlay (κ : Space) (s : Managers) : List Seed :=
  [false, true].flatMap fun i => ((s.mgr i).space κ).seed :: syncs κ (s.inbox i)

theorem mem_inPlay {y : Seed} (h : (mirror κ s).InPlay y) : y ∈ inPlay κ s := by
  obtain ⟨i, h⟩ := h
  refine List.mem_flatMap.2 ⟨i, by cases i <;> simp, ?_⟩
  rcases h with rfl | h
  · exact List.mem_cons_self
  · exact List.mem_cons_of_mem _ h

/-- `ReplaceElection` attaches and detaches servers for the partner. -/
def takesOver (m : Manager) (hsseed : Seed) : Prop :=
  ¬ (hsseed.empty ∨ hsseed.clocktime < m.whs.clocktime) ∧
    ¬ (m.whs.clocktime < hsseed.clocktime ∨ m.whs.nodes = hsseed.nodes) ∧ ¬ m.partner < m.addr

instance {m : Manager} {hsseed : Seed} : Decidable (takesOver m hsseed) :=
  inferInstanceAs (Decidable (¬ _ ∧ ¬ _ ∧ ¬ _))

/-- What is asked of the changes that a `ReplaceElection` makes. -/
def ElectionOk (hash : Bytes → UInt64) (C : Set ClockTime) (s : Managers) (i : Bool) :
    PartnerMsg → Prop
  | .replaceElection _ hsseed c => takesOver (s.mgr i) hsseed →
    AttachDetachOk C hash (inPlay .write s) ((s.mgr i).clockUpdate c)
  | .hashSpaceSync .. | .replaceElectionResult .. => True

instance [DecidablePred (· ∈ C)] {i : Bool} : DecidablePred (ElectionOk hash C s i)
  | .replaceElection .. => inferInstanceAs (Decidable (_ → AttachDetachOk ..))
  | .hashSpaceSync .. | .replaceElectionResult .. => inferInstanceAs (Decidable True)

/-- The changes that a step makes bear clocktimes that are newer and their own, and leave the hash
spaces an active node. -/
def KeepsPartner (hash : Bytes → UInt64) (C : Set ClockTime) (s : Managers) : Act → Prop
  | .removeLocked i a ct =>
    FaultOk C (inPlay .write s) (s.mgr i).whs a ct ∧ FaultOk C (inPlay .read s) (s.mgr i).rhs a ct
  | .attach i _ => AttachOk C hash (inPlay .write s) (s.mgr i)
  | .detach i _ => DetachOk C (inPlay .write s) (s.mgr i)
  | .setAutoReplace i enable => (s.mgr i).autoReplace = false → enable = true →
    AttachDetachOk C hash (inPlay .write s) { s.mgr i with autoReplace := true }
  | .fire i cas => (s.mgr i).delayedReplaceCas = cas →
    AttachDetachOk C hash (inPlay .write s)
      { s.mgr i with timers := (s.mgr i).timers.erase cas }
  | .deliver i k => ∀ msg ∈ (s.inbox i)[k]?, ElectionOk hash C s i msg
  | .publish i => PublishOk (inPlay .read s) (s.mgr i)
  | _ => True

instance [DecidablePred (· ∈ C)] : DecidablePred (KeepsPartner hash C s)
  | .removeLocked .. => inferInstanceAs (Decidable (_ ∧ _))
  | .attach .. => inferInstanceAs (Decidable (AttachOk ..))
  | .detach .. => inferInstanceAs (Decidable (DetachOk ..))
  | .setAutoReplace .. => inferInstanceAs (Decidable (_ = false → _ = true → AttachDetachOk ..))
  | .fire .. => inferInstanceAs (Decidable (_ = _ → AttachDetachOk ..))
  | .deliver i k => inferInstanceAs (Decidable (∀ msg ∈ (s.inbox i)[k]?, ElectionOk hash C s i msg))
  | .publish .. => inferInstanceAs (Decidable (PublishOk ..))
  | .electionFailed .. | .connect .. | .lost .. | .invalidate .. | .partnerConnected ..
  | .startReplace .. | .copyEnd .. | .deleteEnd .. | .clockUpdate .. | .keepAlive .. | .time ..
  | .expire .. => inferInstanceAs (Decidable True)

/-- The message delivered is a `HashSpaceSync`. -/
def syncs? (s : Managers) : Act → Bool
  | .deliver i k => ((s.inbox i)[k]?).any fun | .hashSpaceSync .. => true | _ => false
  | _ => false

/-- Both kinds of hash spaces are mirrored, by managers that are partners. -/
structure InSync (C : Set ClockTime) (s : Managers) : Prop where
  partner : ∀ i, (s.mgr i).partner = (s.mgr !i).addr
  connectable : ∀ i, (s.mgr i).partner.connectable
  mirrored : ∀ κ, Mirrored C (mirror κ s)

section Step

variable (hC : StrictTotal C) (h₀ : ClockTime.zero ∈ C) (hs : InSync C s)

include hC h₀ hs

/-- The changes of attaching and detaching by a manager that differs from this one in nothing that
counts here. -/
theorem InSync.exists_attachDetach {m : Manager} (hok : AttachDetachOk C hash (inPlay .write s) m)
    (i : Bool) (hm : ∀ κ, m.space κ = (s.mgr i).space κ) (hp : m.partner = (s.mgr i).partner)
    (κ : Space) :
    ∃ vs, Script κ (s.mgr i) (andThen (m.attachNewServers hash) (detachFaultServers hash)) vs ∧
      AllowedAll Seed.clocktime Seed.empty C HashSpace.init.seed i (mirror κ s) vs := by
  have hheld : (mirror κ s).held i = (m.space κ).seed := by
    rw [hm]
    rfl
  have hconn : m.partner.connectable := by
    rw [hp]
    exact hs.connectable i
  have hS : κ = .write → ∀ y, (mirror κ s).InPlay y → y ∈ inPlay .write s := by
    rintro rfl y hy
    exact mem_inPlay hy
  obtain ⟨vs, hvs, hall⟩ :=
    Manager.exists_attachDetach hC (hs.mirrored κ) hheld h₀ hconn hS hok
  exact ⟨vs, hvs.congr (by rw [hm]), hall⟩

/-- Answering the partner's `ReplaceElection`. -/
theorem InSync.exists_onReplaceElection {i : Bool} {hsseed : Seed} {adjustClock : UInt32}
    (hg : takesOver (s.mgr i) hsseed →
      AttachDetachOk C hash (inPlay .write s) ((s.mgr i).clockUpdate adjustClock)) (κ : Space) :
    ∃ vs, Script κ (s.mgr i) ((s.mgr i).onReplaceElection hash hsseed adjustClock).1 vs ∧
      AllowedAll Seed.clocktime Seed.empty C HashSpace.init.seed i (mirror κ s) vs := by
  have hnil : Script κ (s.mgr i) ((s.mgr i).clockUpdate adjustClock, []) [] :=
    script_nil (by cases κ <;> rfl)
  have hw : ((s.mgr i).clockUpdate adjustClock).whs = (s.mgr i).whs := rfl
  simp only [onReplaceElection, hw]
  split_ifs with h1 h2 h3
  · exact ⟨[], hnil, trivial⟩
  · exact ⟨[], hnil, trivial⟩
  · exact ⟨[], hnil, trivial⟩
  · obtain ⟨vs, hvs, hall⟩ :=
      hs.exists_attachDetach hC h₀ (hg ⟨h1, h2, h3⟩) i (fun κ => by cases κ <;> rfl) rfl κ
    exact ⟨vs, hvs.andThen_nil (script_startReplace false), hall⟩

/-- Every step but the delivery of a hash space makes a list of changes. -/
theorem InSync.exists_script (hg : KeepsPartner hash C s a) (ha : s.syncs? a = false) (κ : Space) :
    ∃ vs, Script κ (s.mgr a.who) (s.handled hash a) vs ∧
      AllowedAll Seed.clocktime Seed.empty C HashSpace.init.seed a.who (mirror κ s) vs := by
  have hconn := hs.connectable
  have hmir := hs.mirrored κ
  have hS : ∀ {κ}, ∀ y, (mirror κ s).InPlay y → y ∈ inPlay κ s := fun y hy => mem_inPlay hy
  have hnil : ∀ {r : Manager × List Out}, Script κ (s.mgr a.who) r [] → ∃ vs,
      Script κ (s.mgr a.who) r vs ∧
        AllowedAll Seed.clocktime Seed.empty C HashSpace.init.seed a.who (mirror κ s) vs :=
    fun h => ⟨[], h, trivial⟩
  cases a with
  | connect i a =>
    refine hnil (script_nil ?_)
    have := addServer_seeds (m := s.mgr i) (a := a)
    simp only [Manager.seeds, List.cons.injEq, and_true] at this
    cases κ with
    | write => exact this.1
    | read => exact this.2
  | lost i a => exact hnil (script_nil (by cases κ <;> rfl))
  | removeLocked i a ct =>
    refine exists_removeServerLocked hC hmir rfl (hconn i) hS ?_
    cases κ with
    | write => exact hg.1
    | read => exact hg.2
  | invalidate i => exact hnil (script_nil (by cases κ <;> rfl))
  | fire i cas =>
    simp only [handled, casCheckedReplaceElection]
    split_ifs with hcas
    · obtain ⟨vs, hvs, hall⟩ :=
        hs.exists_attachDetach hC h₀ (hg hcas) i (fun κ => by cases κ <;> rfl) rfl κ
      refine ⟨vs, ?_, hall⟩
      unfold replaceElection
      simp only []
      split_ifs
      · exact hvs.andThen_nil script_delegateReplace
      · exact hvs.andThen_nil (script_startReplace false)
    · exact hnil (script_nil (by cases κ <;> rfl))
  | partnerConnected i =>
    refine ⟨_, script_sync (hconn i), hmir.allowed_held hC i, trivial⟩
  | deliver i k =>
    simp only [handled]
    cases hk : (s.inbox i)[k]? with
    | none => exact hnil (script_nil rfl)
    | some msg =>
      cases msg with
      | hashSpaceSync wseed rseed adjustClock => simp [syncs?, hk] at ha
      | replaceElection call hsseed adjustClock =>
        simp only [Option.elim, handle]
        split_ifs with hp
        · exact hnil (script_nil rfl)
        · exact hs.exists_onReplaceElection hC h₀ (hg _ hk) κ
      | replaceElectionResult call res =>
        simp only [Option.elim, handle]
        split_ifs
        · exact hnil (script_onElectionResult call res)
        · exact hnil (script_nil rfl)
  | electionFailed i call => exact hnil (script_onElectionResult call none)
  | attach i replace =>
    obtain ⟨v, hv, hall⟩ := exists_attachNewServers hC hmir rfl (hconn i)
      (by rintro rfl; exact hS) hg
    refine ⟨[v], ?_, hall, trivial⟩
    simp only [handled, controlAttach]
    split_ifs
    · exact hv.andThen_nil (script_startReplace false)
    · exact hv
  | detach i replace =>
    obtain ⟨v, hv, hall⟩ := @exists_detachFaultServers hash _ κ C _ i _ hC hmir rfl (hconn i)
      (by rintro rfl; exact fun y hy => .inl (hS y hy)) hg
    refine ⟨[v], ?_, hall, trivial⟩
    simp only [handled, controlDetach]
    split_ifs
    · exact hv.andThen_nil (script_startReplace false)
    · exact hv
  | setAutoReplace i enable =>
    simp only [handled, Manager.setAutoReplace]
    split_ifs with h1 h2
    · exact hnil (script_nil (by cases κ <;> rfl))
    · simp only [Bool.and_eq_true, Bool.not_eq_true'] at h2
      exact hs.exists_attachDetach hC h₀ (hg h2.1 h2.2) i (fun κ => by cases κ <;> rfl) rfl κ
    · exact hnil (script_nil rfl)
  | startReplace i full => exact hnil (script_startReplace full)
  | copyEnd i replaceTime adjustClock b => exact hnil (script_replaceCopyEnd _ _ _)
  | publish i =>
    refine ⟨_, script_publish (hconn i), ?_, trivial⟩
    cases κ with
    | write => exact hmir.allowed_held hC i
    | read => exact admits_publish (hs.mirrored .write) rfl rfl hS hg
  | deleteEnd i replaceTime adjustClock b => exact hnil (script_nil (by cases κ <;> rfl))
  | clockUpdate i c => exact hnil (script_nil (by cases κ <;> rfl))
  | keepAlive i => exact hnil (script_nil (by cases κ <;> rfl))
  | time i t => exact hnil (script_nil (by cases κ <;> rfl))
  | expire i k => exact hnil (script_nil (by cases κ <;> rfl))

end Step

/-! ### The view after a step -/

theorem syncs_replied : syncs κ (s.replied hash a) = [] := by
  refine List.filterMap_eq_nil_iff.2 fun msg hm => ?_
  obtain ⟨call, res, rfl⟩ := eq_result_of_replied hm
  cases κ <;> rfl

theorem syncs_eraseIdx : ∀ {l : List PartnerMsg} {k : ℕ} {msg : PartnerMsg}, l[k]? = some msg →
    msg.space? κ = none → syncs κ (l.eraseIdx k) = syncs κ l
  | [], k, msg, h, _ => by simp at h
  | m :: l, 0, msg, h, hn => by
    obtain rfl : m = msg := by simpa using h
    simp [syncs, hn]
  | m :: l, k + 1, msg, h, hn => by
    have ih := syncs_eraseIdx (l := l) (k := k) (by simpa using h) hn
    simp only [List.eraseIdx_cons_succ, syncs, List.filterMap_cons] at ih ⊢
    rw [ih]

theorem syncs_left (ha : s.syncs? a = false) : syncs κ (s.left a) = syncs κ (s.inbox a.who) := by
  cases a with
  | deliver i k =>
    simp only [left, Act.who]
    cases hk : (s.inbox i)[k]? with
    | none => rw [List.eraseIdx_of_length_le (List.getElem?_eq_none_iff.1 hk)]
    | some msg =>
      refine syncs_eraseIdx hk ?_
      cases msg with
      | hashSpaceSync wseed rseed adjustClock => simp [syncs?, hk] at ha
      | _ => cases κ <;> rfl
  | _ => rfl

theorem mirror_of_script (ht : Stepped hash s a t)
    (hp : (s.mgr a.who).partner = (s.mgr !a.who).addr)
    (ha : s.syncs? a = false) {vs : List Seed}
    (hvs : Script κ (s.mgr a.who) (s.handled hash a) vs) :
    mirror κ t = (mirror κ s).changes a.who vs := by
  refine Pair.ext_of a.who ?_ ?_ ?_ ?_
  · rw [Pair.changes_held]
    show ((t.mgr a.who).space κ).seed = _
    rw [ht.mgr]
    exact hvs.held
  · rw [Pair.changes_held_not]
    show ((t.mgr !a.who).space κ).seed = _
    rw [ht.mgrOther]
    rfl
  · rw [Pair.changes_queue]
    show syncs κ (t.inbox a.who) = _
    rw [ht.inbox]
    exact syncs_left ha
  · rw [Pair.changes_queue_not]
    show syncs κ (t.inbox !a.who) = _
    rw [ht.inboxOther, if_pos hp, syncs_append, syncs_append, syncs_replied, List.append_nil,
      hvs.sent]
    rfl

/-- The hash space that a manager holds after `HashSpaceSync`. -/
theorem space_hashSpaceSync {m : Manager} {wseed rseed x : Seed} {c : UInt32}
    (hx : (PartnerMsg.hashSpaceSync wseed rseed c).space? κ = some x) :
    ((m.hashSpaceSync hash wseed rseed c).space κ).seed =
      take Seed.clocktime Seed.empty (m.space κ).seed x := by
  cases κ with
  | write =>
    cases hx
    exact apply_ite HashSpace.seed _ _ _
  | read =>
    cases hx
    exact apply_ite HashSpace.seed _ _ _

theorem InSync.receive (hC : StrictTotal C) (hs : InSync C s) {i : Bool} {k : ℕ}
    {wseed rseed : Seed} {c : UInt32} (hk : (s.inbox i)[k]? = some (.hashSpaceSync wseed rseed c))
    (ht : Stepped hash s (.deliver i k) t) (κ : Space) : Mirrored C (mirror κ t) := by
  have hp : ¬ (s.mgr !i).addr ≠ (s.mgr i).partner := not_not.2 (hs.partner i).symm
  have hh : s.handled hash (.deliver i k) =
      ((s.mgr i).hashSpaceSync hash wseed rseed c, []) := by
    simp only [handled, hk, Option.elim, handle, if_neg hp]
  obtain ⟨x, hx⟩ : ∃ x, (PartnerMsg.hashSpaceSync wseed rseed c).space? κ = some x := by
    cases κ with
    | write => exact ⟨_, rfl⟩
    | read => exact ⟨_, rfl⟩
  have hmem : ∀ {l : List PartnerMsg} {y : Seed},
      y ∈ syncs κ l ↔ ∃ msg ∈ l, msg.space? κ = some y :=
    List.mem_filterMap
  have hview : mirror κ t = (mirror κ s).receive i
      (take Seed.clocktime Seed.empty ((mirror κ s).held i) x)
      (syncs κ ((s.inbox i).eraseIdx k)) := by
    refine Pair.ext_of i ?_ ?_ ?_ ?_
    · rw [Pair.receive_held]
      show ((t.mgr i).space κ).seed = _
      rw [show t.mgr i = _ from ht.mgr, hh]
      exact space_hashSpaceSync hx
    · rw [Pair.receive_held_not]
      show ((t.mgr !i).space κ).seed = _
      rw [show t.mgr (!i) = _ from ht.mgrOther]
      rfl
    · rw [Pair.receive_queue]
      show syncs κ (t.inbox i) = _
      rw [show t.inbox i = _ from ht.inbox]
      rfl
    · rw [Pair.receive_queue_not]
      show syncs κ (t.inbox !i) = _
      rw [show t.inbox (!i) = _ from ht.inboxOther, hh, syncs_append, syncs_append, syncs_replied]
      simp only [partnerMsgs, List.filterMap_nil, ite_self, syncs, List.append_nil]
      rfl
  rw [hview]
  refine (hs.mirrored κ).receive hC (hmem.2 ⟨_, List.mem_of_getElem? hk, hx⟩) ?_ ?_
  · intro y hy
    obtain ⟨msg, hm, hy⟩ := hmem.1 hy
    exact hmem.2 ⟨msg, List.mem_of_mem_eraseIdx hm, hy⟩
  · intro y hy
    obtain ⟨msg, hm, hy⟩ := hmem.1 hy
    obtain ⟨j, hj⟩ := List.mem_iff_getElem?.1 hm
    by_cases hjk : j = k
    · subst hjk
      rw [hk, Option.some.injEq] at hj
      rw [← hj, hx, Option.some.injEq] at hy
      exact .inl hy.symm
    · exact .inr (hmem.2 ⟨msg, List.mem_eraseIdx_iff_getElem?.2 ⟨j, hjk, hj⟩, hy⟩)

theorem InSync.of_step (hC : StrictTotal C) (h₀ : ClockTime.zero ∈ C) (hs : InSync C s)
    (hg : KeepsPartner hash C s a) (h : step hash s a = some t) : InSync C t := by
  have ht := stepped_of_step h
  have h₀' : HashSpace.init.seed.clocktime ∈ C := h₀
  refine ⟨fun i => ?_, fun i => ?_, fun κ => ?_⟩
  · rw [(ht.addr i).2, (ht.addr (!i)).1]
    exact hs.partner i
  · rw [(ht.addr i).2]
    exact hs.connectable i
  · cases ha : s.syncs? a with
    | false =>
      obtain ⟨vs, hvs, hall⟩ := hs.exists_script hC h₀ hg ha κ
      rw [mirror_of_script ht (hs.partner _) ha hvs]
      exact (hs.mirrored κ).changes hC h₀' hall
    | true =>
      cases a with
      | deliver i k =>
        simp only [syncs?, Option.any_eq_true] at ha
        obtain ⟨msg, hk, hm⟩ := ha
        cases msg with
        | hashSpaceSync wseed rseed c => exact hs.receive hC hk ht κ
        | _ => cases hm
      | _ => cases ha

theorem InSync.init (hC : StrictTotal C) (h₀ : ClockTime.zero ∈ C) {addr partner : Bool → Address}
    {clock : Bool → ClockLogic} {auto : Bool → Bool} (hp : ∀ i, partner i = addr (!i))
    (hconn : ∀ i, (addr i).connectable) : InSync C (init addr partner clock auto) := by
  refine ⟨hp, fun i => ?_, fun κ => ?_⟩
  · show (partner i).connectable = true
    rw [hp]
    exact hconn _
  · have hm : mirror κ (Managers.init addr partner clock auto) =
        ⟨fun _ => HashSpace.init.seed, fun _ => []⟩ := by
      cases κ <;> rfl
    rw [hm]
    exact Inv.init hC h₀

/-- No `HashSpaceSync` is on its way. -/
def Delivered (s : Managers) : Prop := ∀ i, ∀ msg ∈ s.inbox i, msg.space? .write = none

/-- The two managers have the same hash spaces. -/
def Converged (s : Managers) : Prop :=
  (s.mgr false).whs.seed = (s.mgr true).whs.seed ∧ (s.mgr false).rhs.seed = (s.mgr true).rhs.seed

instance : Decidable s.Delivered := inferInstanceAs (Decidable (∀ _, ∀ msg ∈ _, _))

instance : Decidable s.Converged := inferInstanceAs (Decidable (_ ∧ _))

/-- Partners whose changes all are such have the same hash spaces as soon as every `HashSpaceSync`
is delivered. -/
theorem converged_of_run (hC : StrictTotal C) (h₀ : ClockTime.zero ∈ C)
    {addr partner : Bool → Address} {clock : Bool → ClockLogic} {auto : Bool → Bool}
    {as : List Act} (hp : ∀ i, partner i = addr (!i)) (hconn : ∀ i, (addr i).connectable)
    (h : Machine.Run (step hash) (KeepsPartner hash C) (init addr partner clock auto) as s)
    (hd : s.Delivered) : s.Converged := by
  have hs : InSync C s := h.inv (fun _ _ _ hs hg ht => hs.of_step hC h₀ hg ht)
    (InSync.init hC h₀ hp hconn)
  have hq : ∀ κ i, (mirror κ s).queue i = [] := by
    intro κ i
    refine List.filterMap_eq_nil_iff.2 fun msg hm => ?_
    have hw := hd i msg hm
    cases msg with
    | hashSpaceSync wseed rseed c => cases hw
    | _ => cases κ <;> rfl
  exact ⟨(hs.mirrored .write).agree hC (hq .write), (hs.mirrored .read).agree hC (hq .read)⟩

/-! The managers attach a server each and one is lost. Where the clocks of the two changes are the
same and their messages cross, each manager takes the other's hash space for its own. -/

section Sample

open Sample

def seconds : List ClockTime := [.zero, .mk' 1 1000, .mk' 2 1000, .mk' 3 1000]

theorem strictTotal_seconds : StrictTotal {ct | ct ∈ seconds} where
  irrefl := show ∀ x ∈ seconds, ¬ x < x by decide
  trans := show ∀ x ∈ seconds, ∀ y ∈ seconds, ∀ z ∈ seconds, x < y → y < z → x < z by decide
  total := show ∀ x ∈ seconds, ∀ y ∈ seconds, x = y ∨ x < y ∨ y < x by decide

instance : DecidablePred (· ∈ {ct | ct ∈ seconds}) := fun ct =>
  inferInstanceAs (Decidable (ct ∈ seconds))

def inTurnRun : List Act :=
  [.connect false (svr 1), .connect true (svr 2), .attach false false, .deliver true 0,
    .attach true false, .deliver false 0, .lost false (svr 1),
    .removeLocked false (svr 1) (.mk' 3 1000), .deliver true 0]

def crossingRun : List Act :=
  [.connect false (svr 1), .connect true (svr 2), .attach false false, .attach true false,
    .deliver false 0, .deliver true 0]

theorem converged_inTurnRun : ∃ s,
    Machine.Run (step zeroHash) (KeepsPartner zeroHash {ct | ct ∈ seconds}) pair inTurnRun s ∧
      (s.mgr true).whs.seed = ⟨[⟨svr 1, false⟩, ⟨svr 2, true⟩], .mk' 3 1000⟩ ∧ s.Converged := by
  have h : Machine.Run (step zeroHash) (KeepsPartner zeroHash {ct | ct ∈ seconds}) pair
      inTurnRun _ := Machine.execIf_run rfl
  exact ⟨_, h, by decide, converged_of_run strictTotal_seconds (show _ ∈ seconds by decide)
    (by decide) (by decide) h (by decide)⟩

theorem not_converged_crossingRun : ∃ s, Machine.Run (step zeroHash) Machine.Free pair
    crossingRun s ∧ s.Delivered ∧ ¬ s.Converged := by
  refine ⟨_, Machine.exec_run rfl, ?_⟩
  decide

end Sample

end Managers

end Kumofs
