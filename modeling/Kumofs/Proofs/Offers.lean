import Kumofs.Sample
import Kumofs.System.Offers

/-!
# Why an offered stream is dropped

`send_offer` drops whatever is left of the offers before it, and the callback of a `ReplaceOffer`
drops whatever is offered to its address by then. So an accumulator leaves the set only for its own
reasons if and only if offers are made when the set is empty and no callback finds an accumulator
of a later call.
-/

namespace Kumofs.Offers

variable {ρ : Type*} {s t : Offers ρ} {a : Act ρ}

/-- An offer is made when the set is empty; a callback finds the accumulator of its call or none. -/
def ActInOrder (s : Offers ρ) : Act ρ → Prop
  | .sendOffer _ _ => s.accumSet = []
  | .resReplaceOffer k => ∀ c ∈ s.calls[k]?, ∀ it ∈ accumSetFind s.accumSet c.1,
    ∀ x ∈ s.accumSet[it]?, x.ident = c.2
  | .streamAccepted _ _ => True

def ActsInOrder : Offers ρ → List (Act ρ) → Prop
  | _, [] => True
  | s, a :: as => ∀ t ∈ step s a, s.ActInOrder a ∧ ActsInOrder t as

/-! ## Pointers -/

/-- The accumulators of a set have pointers of their own, from `lo` on and before `hi`. -/
structure Idents (lo hi : ℕ) (set : List (Accumulator ρ)) : Prop where
  nodup : (set.map (·.ident)).Nodup
  le : lo ≤ hi
  mem : ∀ x ∈ set, lo ≤ x.ident ∧ x.ident < hi

theorem modify_map_ident (set : List (Accumulator ρ)) (it : ℕ) (v : ρ) :
    (set.modify it fun x => { x with items := x.items ++ [v] }).map (·.ident) =
      set.map (·.ident) := by
  induction set generalizing it with
  | nil => cases it <;> rfl
  | cons x set ih =>
    cases it with
    | zero => rfl
    | succ it =>
      simp only [List.modify_succ_cons, List.map_cons]
      rw [ih]

theorem Idents.offerAdd {lo : ℕ} {r : List (Accumulator ρ) × ℕ} (h : Idents lo r.2 r.1)
    (replaceTime : ClockTime) (kv : Address × ρ) :
    Idents lo (offerAdd replaceTime r kv).2 (offerAdd replaceTime r kv).1 := by
  unfold Kumofs.offerAdd
  split
  · refine ⟨?_, h.le, fun x hx => ?_⟩
    · rw [modify_map_ident]
      exact h.nodup
    · have hx' : x.ident ∈ r.1.map (·.ident) := by
        rw [← modify_map_ident]
        exact List.mem_map_of_mem hx
      obtain ⟨y, hy, hxy⟩ := List.mem_map.1 hx'
      rw [← hxy]
      exact h.mem y hy
  · have hperm := List.perm_insertionSort (fun x y : Accumulator ρ => x.addr ≤ y.addr)
      (r.1 ++ [⟨r.2, kv.1, replaceTime, [kv.2]⟩])
    refine ⟨?_, Nat.le_succ_of_le h.le, fun x hx => ?_⟩
    · rw [(hperm.map _).nodup_iff, List.map_append, List.nodup_append]
      refine ⟨h.nodup, List.nodup_singleton _, fun i hi j hj => ?_⟩
      obtain ⟨y, hy, rfl⟩ := List.mem_map.1 hi
      rw [List.map_singleton, List.mem_singleton] at hj
      rw [hj]
      exact Nat.ne_of_lt (h.mem y hy).2
    · rw [hperm.mem_iff, List.mem_append, List.mem_singleton] at hx
      rcases hx with hx | rfl
      · exact ⟨(h.mem x hx).1, Nat.lt_succ_of_lt (h.mem x hx).2⟩
      · exact ⟨h.le, Nat.lt_succ_self _⟩

theorem Idents.foldl {lo : ℕ} (replaceTime : ClockTime) : ∀ (adds : List (Address × ρ))
    {r : List (Accumulator ρ) × ℕ}, Idents lo r.2 r.1 →
      Idents lo (adds.foldl (Kumofs.offerAdd replaceTime) r).2
        (adds.foldl (Kumofs.offerAdd replaceTime) r).1
  | [], _, h => h
  | kv :: adds, _, h => (h.offerAdd replaceTime kv).foldl replaceTime adds

theorem Idents.sendOffer (s : Offers ρ) (replaceTime : ClockTime) (adds : List (Address × ρ)) :
    Idents s.nextIdent (s.sendOffer replaceTime adds).nextIdent
      (s.sendOffer replaceTime adds).accumSet :=
  Idents.foldl replaceTime adds ⟨List.nodup_nil, le_rfl, fun _ h => absurd h List.not_mem_nil⟩

theorem Idents.eraseFound {lo hi : ℕ} {set : List (Accumulator ρ)} (h : Idents lo hi set)
    (addr : Address) : Idents lo hi (eraseFound set addr) := by
  unfold Offers.eraseFound
  cases accumSetFind set addr with
  | none => exact h
  | some it =>
    refine ⟨?_, h.le, fun x hx => h.mem x (List.mem_of_mem_eraseIdx hx)⟩
    exact h.nodup.sublist ((List.eraseIdx_sublist ..).map _)

theorem Idents.init : Idents 0 (Offers.init (ρ := ρ)).nextIdent (Offers.init (ρ := ρ)).accumSet :=
  ⟨List.nodup_nil, le_rfl, fun _ h => absurd h List.not_mem_nil⟩

theorem Idents.of_step (h : Idents 0 s.nextIdent s.accumSet) (ht : step s a = some t) :
    Idents 0 t.nextIdent t.accumSet := by
  cases a with
  | sendOffer replaceTime adds =>
    cases ht
    have hn := Idents.sendOffer s replaceTime adds
    exact ⟨hn.nodup, Nat.zero_le _, fun x hx => ⟨Nat.zero_le _, (hn.mem x hx).2⟩⟩
  | resReplaceOffer k =>
    obtain ⟨c, -, rfl⟩ := Option.map_eq_some_iff.1 ht
    exact h.eraseFound c.1
  | streamAccepted iaddr acked =>
    cases ht
    cases acked with
    | false => exact h
    | true => exact h.eraseFound iaddr

/-! ## What leaves the set -/

/-- An accumulator that is gone is the one found. -/
theorem found_of_gone {set : List (Accumulator ρ)} {addr : Address} {x : Accumulator ρ}
    (hx : x ∈ set) (hgone : ∀ y ∈ eraseFound set addr, y.ident ≠ x.ident) :
    ∃ it, accumSetFind set addr = some it ∧ set[it]? = some x := by
  unfold eraseFound at hgone
  cases hf : accumSetFind set addr with
  | none =>
    rw [hf] at hgone
    exact absurd rfl (hgone x hx)
  | some it =>
    rw [hf] at hgone
    obtain ⟨j, hj⟩ := List.mem_iff_getElem?.1 hx
    by_cases hji : j = it
    · exact ⟨it, rfl, hji ▸ hj⟩
    · exact absurd rfl (hgone x (List.mem_eraseIdx_iff_getElem?.2 ⟨j, hji, hj⟩))

/-- The one found is gone. -/
theorem gone_of_found {lo hi : ℕ} {set : List (Accumulator ρ)} (h : Idents lo hi set)
    {addr : Address} {it : ℕ} {x : Accumulator ρ} (hf : accumSetFind set addr = some it)
    (hx : set[it]? = some x) : ∀ y ∈ eraseFound set addr, y.ident ≠ x.ident := by
  unfold eraseFound
  rw [hf]
  intro y hy hyx
  obtain ⟨j, hji, hj⟩ := List.mem_eraseIdx_iff_getElem?.1 hy
  have hj' : (set.map (·.ident))[j]? = some x.ident := by rw [List.getElem?_map, hj, ← hyx]; rfl
  have hi' : (set.map (·.ident))[it]? = some x.ident := by rw [List.getElem?_map, hx]; rfl
  exact hji ((List.getElem?_inj (List.getElem?_eq_some_iff.1 hj').1 h.nodup).1 (hj'.trans hi'.symm))

theorem ownReason_step (h : Idents 0 s.nextIdent s.accumSet) (ht : step s a = some t) :
    (∀ x ∈ s.accumSet, (∀ y ∈ t.accumSet, y.ident ≠ x.ident) → s.OwnReason x a) ↔
      s.ActInOrder a := by
  cases a with
  | sendOffer replaceTime adds =>
    cases ht
    constructor
    · intro hown
      -- an accumulator of an earlier offer would be gone
      by_contra hne
      obtain ⟨x, hx⟩ := List.exists_mem_of_ne_nil _ hne
      have hnew := Idents.sendOffer s replaceTime adds
      rcases hown x hx fun y hy hyx => by
          have hlt := (h.mem x hx).2
          have hle := (hnew.mem y hy).1
          omega with ⟨_, _, hact, _⟩ | ⟨_, _, hact, _⟩
      · cases hact
      · cases hact
    · intro hnil x hx
      have hnil : s.accumSet = [] := hnil
      rw [hnil] at hx
      exact absurd hx List.not_mem_nil
  | resReplaceOffer k =>
    obtain ⟨c, hk, rfl⟩ := Option.map_eq_some_iff.1 ht
    constructor
    · intro hown c' hc' it hit x hx
      rw [hk] at hc'
      cases hc'
      rcases hown x (List.mem_of_getElem? hx) (gone_of_found h hit hx) with
        ⟨_, _, hact, _⟩ | ⟨j, c', hact, hj, hid⟩
      · cases hact
      · cases hact
        rw [hk] at hj
        cases hj
        exact hid.symm
    · intro hok x hx hgone
      obtain ⟨it, hit, hx⟩ := found_of_gone hx hgone
      exact .inr ⟨k, c, rfl, hk, (hok c hk it hit x hx).symm⟩
  | streamAccepted iaddr acked =>
    cases ht
    refine ⟨fun _ => trivial, fun _ x hx hgone => ?_⟩
    cases acked with
    | false => exact absurd rfl (hgone x hx)
    | true =>
      obtain ⟨it, hit, hx⟩ := found_of_gone hx hgone
      exact .inl ⟨iaddr, it, rfl, hit, hx⟩

theorem ownReasons_iff_of : ∀ (as : List (Act ρ)) {s : Offers ρ},
    Idents 0 s.nextIdent s.accumSet → (OwnReasons s as ↔ ActsInOrder s as)
  | [], _, _ => Iff.rfl
  | a :: as, s, h => by
    unfold OwnReasons ActsInOrder
    refine forall_congr' fun t => forall_congr' fun ht => ?_
    rw [ownReason_step h ht, ownReasons_iff_of as (h.of_step ht)]

/-- Whatever the order of offers, callbacks and connections, an accumulator leaves the set only for
its own reasons if and only if they come in order. -/
theorem ownReasons_iff (as : List (Act ρ)) : OwnReasons init as ↔ ActsInOrder init as :=
  ownReasons_iff_of as Idents.init

/-! A stream that is acknowledged, and another one to the same receiver before the call for the
first times out. -/

section Sample

open Sample

theorem not_ownReasons_lateTimeout : ¬ OwnReasons (ρ := ℕ) init
    [.sendOffer (.mk' 1 1000) [(svr 1, 7)], .streamAccepted (svr 1) true,
      .sendOffer (.mk' 2 1000) [(svr 1, 8)], .resReplaceOffer 0] := by
  rw [ownReasons_iff_of _ Idents.init]
  intro h
  have h0 := ((h _ rfl).2 _ rfl).2
  have h1 := ((h0 _ rfl).2 _ rfl).1
  have h2 := h1 (svr 1, 0) rfl 0 (by decide) ⟨1, svr 1, .mk' 2 1000, [8]⟩ (by decide)
  exact absurd h2 (by decide)

end Sample

end Kumofs.Offers
