import Kumofs.Server.Assign
import Kumofs.Gateway.Store
import Kumofs.Proofs.Ring
import Kumofs.Sample

/-!
# One coordinator for a hash, and room for its replicas

The coordinator's check and the gateway's walk both settle on the first active node of the
assignment. Where every assigned node is faulty the check lets every server pass, so it picks one
server exactly when the hash space has no active node or the assignment has one.

A coordinator has at most two replicas under `whs`. Under `rhs` it has three when `rhs` assigns
three active nodes and none of them is among those `whs` assigns, and then the array of two that
`Set` and `Delete` pass is too small.
-/

namespace Kumofs.Server

open HashSpace Gateway

variable {self : Address} {hs whs rhs : HashSpace} {h : UInt64}

/-- The first active node of the assignment. -/
def firstActive (hs : HashSpace) (h : UInt64) : Option Address :=
  ((hs.eachAssign h).find? (·.active)).map (·.addr)

/-- `check_coordinator_assign` lets the server at `a` proceed. -/
def Accepts (hs : HashSpace) (h : UInt64) (a : Address) : Prop :=
  checkCoordinatorAssign a hs h = .ok ()

theorem accepts_iff : Accepts hs h self ↔
    hs.empty = false ∧ ∀ a, firstActive hs h = some a → a = self := by
  unfold Accepts checkCoordinatorAssign firstActive
  cases he : hs.empty
  · rcases hf : (hs.eachAssign h).find? (·.active) with _ | r
    · simp [hf]
    · by_cases hr : r.addr = self <;> simp [hf, hr]
  · simp

theorem firstActive_eq_none :
    firstActive hs h = none ↔ ∀ r ∈ hs.eachAssign h, r.active = false := by
  simp [firstActive]

theorem firstActive_mem {a : Address} (ha : firstActive hs h = some a) :
    ∃ r ∈ hs.eachAssign h, r.active = true ∧ r.addr = a := by
  unfold firstActive at ha
  obtain ⟨r, hr, rfl⟩ := Option.map_eq_some_iff.1 ha
  exact ⟨r, List.mem_of_find?_eq_some hr, by simpa using List.find?_some hr, rfl⟩

/-- The gateway's walk stops at the first active node of the assignment, if there is one. -/
theorem serverFor_zero {a : Address} (he : hs.empty = false) (ha : firstActive hs h = some a) :
    serverFor hs h 0 = .ok a := by
  obtain ⟨r, hr, rfl⟩ := Option.map_eq_some_iff.1 ha
  have hne : hs.hashspace ≠ [] := by
    intro h0
    simp [eachAssign, reals, h0] at hr
  exact serverFor_eq hne he (Nat.zero_le _) hr

/-- What a hash space has to do for `h` to be written through one server. -/
structure UniqueCoordinator (hs : HashSpace) (h : UInt64) : Prop where
  accepted : ∀ a, Accepts hs h a ↔ firstActive hs h = some a
  unique : ∀ a b, Accepts hs h a → Accepts hs h b → a = b
  refused : (∀ r ∈ hs.eachAssign h, r.active = false) → ∀ a, ¬ Accepts hs h a
  gateway : (∃ r ∈ hs.eachAssign h, r.active = true) →
    ∃ a, Accepts hs h a ∧ serverFor hs h 0 = .ok a

/-- Without an active node in the assignment every server is let through. -/
theorem accepts_all (he : hs.empty = false) (hn : firstActive hs h = none) (a : Address) :
    Accepts hs h a :=
  accepts_iff.2 ⟨he, by simp [hn]⟩

theorem uniqueCoordinator_of_some {b : Address} (he : hs.empty = false)
    (hb : firstActive hs h = some b) : UniqueCoordinator hs h := by
  have acc : ∀ a, Accepts hs h a ↔ firstActive hs h = some a := by
    intro a
    rw [accepts_iff, hb]
    simp [he]
  refine ⟨acc, fun a c ha hc => ?_, fun hn a ha => ?_, fun _ => ?_⟩
  · rw [acc, hb] at ha hc
    exact Option.some.inj (ha.symm.trans hc)
  · rw [firstActive_eq_none.2 hn] at hb
    simp at hb
  · exact ⟨b, (acc b).2 hb, serverFor_zero he hb⟩

theorem uniqueCoordinator_of_empty (he : hs.empty = true) (hn : firstActive hs h = none) :
    UniqueCoordinator hs h := by
  have no : ∀ a, ¬ Accepts hs h a := fun a ha => by simp [accepts_iff, he] at ha
  refine ⟨fun a => ?_, fun a _ ha => absurd ha (no a), fun _ => no, fun ⟨r, hr, ha⟩ => ?_⟩
  · simp [no, hn]
  · rw [firstActive_eq_none.1 hn r hr] at ha
    simp at ha

/-- The coordinator of a hash is one server, the first active node of its assignment and the
gateway's choice, exactly when the hash space has no active node at all or the assignment has
one. -/
theorem uniqueCoordinator_iff (hash : Bytes → UInt64) (s : Seed) (h : UInt64) :
    UniqueCoordinator (ofSeed hash s) h ↔
      (ofSeed hash s).empty = true ∨ ∃ r ∈ (ofSeed hash s).eachAssign h, r.active = true := by
  constructor
  · intro hu
    by_contra hc
    push Not at hc
    obtain ⟨he, hn⟩ := hc
    have hn' : ∀ r ∈ (ofSeed hash s).eachAssign h, r.active = false := fun r hr => by
      simpa using hn r hr
    exact hu.refused hn' default
      (accepts_all (by simpa using he) (firstActive_eq_none.2 hn') default)
  · rintro (he | ⟨r, hr, ha⟩)
    · exact uniqueCoordinator_of_empty he
        (firstActive_eq_none.2 fun r hr => not_active_of_empty he hr)
    · have he : (ofSeed hash s).empty = false := by
        by_contra he
        rw [not_active_of_empty (by simpa using he) hr] at ha
        simp at ha
      rcases hf : firstActive (ofSeed hash s) h with _ | b
      · rw [firstActive_eq_none.1 hf r hr] at ha
        simp at ha
      · exact uniqueCoordinator_of_some he hf

/-- Three faulty servers and an active one; the hash 0 is assigned the first three. -/
def faultySeed : Seed :=
  ⟨[⟨Sample.svr 1, false⟩, ⟨Sample.svr 2, false⟩, ⟨Sample.svr 3, false⟩, ⟨Sample.svr 4, true⟩],
    .mk' 1 1000⟩

theorem assign_faultySeed : (ofSeed Sample.zeroHash faultySeed).eachAssign 0 =
    [⟨Sample.svr 1, false⟩, ⟨Sample.svr 2, false⟩, ⟨Sample.svr 3, false⟩] :=
  Sample.eachAssign_zeroHash rfl (by decide) (by decide) (by decide)

/-- With its three assigned nodes faulty, hash 0 has every server for a coordinator. -/
theorem faultySeed_not_unique : (faultySeed.nodes.map (·.addr)).Nodup ∧
    ¬ UniqueCoordinator (ofSeed Sample.zeroHash faultySeed) 0 := by
  refine ⟨by decide, fun hu => ?_⟩
  have hall : ∀ a, Accepts (ofSeed Sample.zeroHash faultySeed) 0 a :=
    accepts_all rfl (firstActive_eq_none.2 (by rw [assign_faultySeed]; decide))
  exact absurd (hu.unique _ _ (hall (Sample.svr 3)) (hall (Sample.svr 4))) (by decide)

/-! ## The arrays of replicas -/

/-- The arrays `calc_replicators` writes are large enough. -/
def Replicators.Fits (r : Replicators) : Prop :=
  r.rrepto.length ≤ numReplication ∧ r.wrepto.length ≤ numReplication ∧
    r.wrepAddrs.length ≤ numReplication + 1

instance (r : Replicators) : Decidable r.Fits :=
  inferInstanceAs (Decidable (_ ∧ _ ∧ _))

theorem assignedActiveExcludeOne_length (ha : Accepts hs h self) :
    (assignedActiveExcludeOne self hs h).length ≤ numReplication := by
  have hlen := eachAssign_length_le hs h
  unfold assignedActiveExcludeOne
  rw [List.length_map]
  rcases hf : firstActive hs h with _ | a
  · have hn := firstActive_eq_none.1 hf
    rw [List.filter_eq_nil_iff.2 (fun r hr => by simp [hn r hr])]
    exact Nat.zero_le _
  · obtain ⟨r, hr, -, hra⟩ := firstActive_mem hf
    have hself : r.addr = self := hra.trans ((accepts_iff.1 ha).2 a hf)
    have hlt : ((hs.eachAssign h).filter fun r => r.addr ≠ self ∧ r.active).length <
        (hs.eachAssign h).length :=
      List.length_filter_lt_length_iff_exists.2 ⟨r, hr, by simp [hself]⟩
    exact Nat.le_of_lt_succ (hlt.trans_le hlen)

theorem mem_assignedActiveExcludeOne {a : Address} :
    a ∈ assignedActiveExcludeOne self hs h ↔ a ≠ self ∧ a ∈ hs.activeAssigned h := by
  simp only [assignedActiveExcludeOne, mem_activeAssigned, List.mem_map, List.mem_filter,
    decide_eq_true_eq]
  constructor
  · rintro ⟨r, ⟨hr, hne, hra⟩, rfl⟩
    exact ⟨hne, r, hr, hra, rfl⟩
  · rintro ⟨hne, r, hr, hra, rfl⟩
    exact ⟨r, ⟨hr, hne, hra⟩, rfl⟩

theorem assignedActiveExcludeN_length_le (hs : HashSpace) (h : UInt64) (excludes : List Address) :
    (assignedActiveExcludeN excludes hs h).length ≤ numReplication ↔
      (hs.eachAssign h).length ≤ numReplication ∨
        ∃ r ∈ hs.eachAssign h, r.active = false ∨ r.addr ∈ excludes := by
  have hlen := eachAssign_length_le hs h
  unfold assignedActiveExcludeN
  rw [List.length_map]
  constructor
  · intro hle
    by_contra hc
    push Not at hc
    obtain ⟨hl, hr⟩ := hc
    rw [List.filter_eq_self.2 (fun r hm => by simpa using hr r hm)] at hle
    exact absurd hle (not_le.2 hl)
  · rintro (hl | ⟨r, hr, hx⟩)
    · exact (List.length_filter_le _ _).trans hl
    · have hlt : ((hs.eachAssign h).filter fun r => r.active ∧ r.addr ∉ excludes).length <
          (hs.eachAssign h).length := by
        refine List.length_filter_lt_length_iff_exists.2 ⟨r, hr, ?_⟩
        rcases hx with hx | hx <;> simp [hx]
      exact Nat.le_of_lt_succ (hlt.trans_le hlen)

/-- On a server accepted as the coordinator, the arrays are large enough exactly when the hash
spaces have one clocktime, or `rhs` assigns at most two nodes, or one of the nodes it assigns is
faulty, is the coordinator or is an active node that `whs` assigns. -/
theorem calcReplicators_fits_iff (hash : Bytes → UInt64) (ws rs : Seed) (h : UInt64)
    (self : Address) (ha : Accepts (ofSeed hash ws) h self) :
    (∀ r, calcReplicators self (ofSeed hash ws) (ofSeed hash rs) h = .ok r → r.Fits) ↔
      ws.clocktime = rs.clocktime ∨
        ((ofSeed hash rs).eachAssign h).length ≤ numReplication ∨
        ∃ r ∈ (ofSeed hash rs).eachAssign h, r.active = false ∨ r.addr = self ∨
          r.addr ∈ (ofSeed hash ws).activeAssigned h := by
  have hw := assignedActiveExcludeOne_length ha
  have hmem : ∀ a, a ∈ assignedActiveExcludeOne self (ofSeed hash ws) h ++ [self] ↔
      a = self ∨ a ∈ (ofSeed hash ws).activeAssigned h := by
    intro a
    rw [List.mem_append, List.mem_singleton, mem_assignedActiveExcludeOne]
    by_cases e : a = self <;> simp [e]
  have hr := assignedActiveExcludeN_length_le (ofSeed hash rs) h
    (assignedActiveExcludeOne self (ofSeed hash ws) h ++ [self])
  simp only [hmem] at hr
  have hct : (ofSeed hash ws).clocktime = ws.clocktime ∧
      (ofSeed hash rs).clocktime = rs.clocktime := ⟨rfl, rfl⟩
  unfold Accepts at ha
  unfold calcReplicators
  simp only [ha, hct]
  split_ifs with h1 h2
  · refine iff_of_true (fun r e => ?_) (.inl h1)
    cases e
    exact ⟨Nat.zero_le _, hw, Nat.zero_le _⟩
  · refine iff_of_true (fun r e => by cases e) (.inr ?_)
    -- no active node in `rhs`: the walk stops early or meets a faulty node
    rcases hl : (ofSeed hash rs).eachAssign h with _ | ⟨r, l⟩
    · exact .inl (Nat.zero_le _)
    · exact .inr ⟨r, List.mem_cons_self,
        .inl (not_active_of_empty h2 (hl ▸ List.mem_cons_self))⟩
  · simp only [Except.ok.injEq, forall_eq', Replicators.Fits, hr, List.length_append,
      List.length_singleton, h1, false_or]
    exact ⟨fun hf => hf.1, fun hf => ⟨hf, hw, Nat.succ_le_succ hw⟩⟩

/-- Servers 4, 5 and 6 hold the keys of hash 0 while 1, 2 and 3 are to take them over. -/
def newOwners : Seed := Sample.seedOf [1, 2, 3, 4, 5, 6] (.mk' 2 1000)

def oldOwners : Seed := Sample.seedOf [4, 5, 6] (.mk' 1 1000)

theorem assign_newOwners : (ofSeed Sample.zeroHash newOwners).eachAssign 0 =
    [⟨Sample.svr 1, true⟩, ⟨Sample.svr 2, true⟩, ⟨Sample.svr 3, true⟩] :=
  Sample.eachAssign_zeroHash rfl (by decide) (by decide) (by decide)

theorem assign_oldOwners : (ofSeed Sample.zeroHash oldOwners).eachAssign 0 =
    [⟨Sample.svr 4, true⟩, ⟨Sample.svr 5, true⟩, ⟨Sample.svr 6, true⟩] :=
  Sample.eachAssign_zeroHash rfl (by decide) (by decide) (by decide)

theorem accepts_newOwners : Accepts (ofSeed Sample.zeroHash newOwners) 0 (Sample.svr 1) :=
  accepts_iff.2 ⟨rfl, by simp [firstActive, assign_newOwners]⟩

theorem accepts_oldOwners : Accepts (ofSeed Sample.zeroHash oldOwners) 0 (Sample.svr 4) :=
  accepts_iff.2 ⟨rfl, by simp [firstActive, assign_oldOwners]⟩

theorem calcReplicators_fits_before :
    Accepts (ofSeed Sample.zeroHash oldOwners) 0 (Sample.svr 4) ∧
      ∀ r, calcReplicators (Sample.svr 4) (ofSeed Sample.zeroHash oldOwners)
        (ofSeed Sample.zeroHash oldOwners) 0 = .ok r → r.Fits :=
  ⟨accepts_oldOwners, (calcReplicators_fits_iff Sample.zeroHash oldOwners oldOwners 0 _
    accepts_oldOwners).2 (.inl rfl)⟩

/-- The new coordinator of hash 0 writes three entries into `rrepto`. -/
theorem calcReplicators_overflow :
    (newOwners.nodes.map (·.addr)).Nodup ∧ (oldOwners.nodes.map (·.addr)).Nodup ∧
      Accepts (ofSeed Sample.zeroHash newOwners) 0 (Sample.svr 1) ∧
      ∃ r, calcReplicators (Sample.svr 1) (ofSeed Sample.zeroHash newOwners)
        (ofSeed Sample.zeroHash oldOwners) 0 = .ok r ∧ r.rrepto.length = 3 ∧ ¬ r.Fits := by
  refine ⟨by decide, by decide, accepts_newOwners,
    ⟨[Sample.svr 4, Sample.svr 5, Sample.svr 6], [Sample.svr 2, Sample.svr 3],
      [Sample.svr 2, Sample.svr 3, Sample.svr 1]⟩, ?_, rfl, by decide⟩
  have hct : ¬ (ofSeed Sample.zeroHash newOwners).clocktime =
      (ofSeed Sample.zeroHash oldOwners).clocktime := by decide
  have he : (ofSeed Sample.zeroHash oldOwners).empty = false := rfl
  have hacc := accepts_newOwners
  unfold Accepts at hacc
  simp only [calcReplicators, hacc, hct, he, assignedActiveExcludeOne, assignedActiveExcludeN,
    assign_newOwners, assign_oldOwners]
  decide

end Kumofs.Server
