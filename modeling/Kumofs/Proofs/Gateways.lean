import Kumofs.Gateway.Spaces
import Kumofs.Lib.Newest
import Kumofs.Proofs.ClockOrder
import Kumofs.Sample
import Mathlib.Data.List.Induction

/-!
# Gateways agree

A hash space of a gateway is a register that keeps the newest of the seeds that have an active node.
Gateways that got the same pushes use the same hash spaces, in whichever order they came.
-/

namespace Kumofs.Gateway

open Newest

namespace Spaces

variable {hash : Bytes → UInt64} {hs : HashSpace} {o : Option Seed} {seed : Seed}
  {C : Set ClockTime} {l l' : List (Seed × Seed)} {seeds : List Seed}

/-- A seed is kept if it has an active node; before the first of these there may be anything. -/
def Holds (hash : Bytes → UInt64) (hs : HashSpace) : Option Seed → Prop
  | none => hs.empty = true
  | some seed => seed.empty = false ∧ hs = .ofSeed hash seed

/-- The stamps of the seeds with an active node are in order, and tell them apart. -/
structure Stamped (C : Set ClockTime) (seeds : List Seed) : Prop where
  mem : ∀ x ∈ seeds, x.empty = false → x.clocktime ∈ C
  inj : ∀ x ∈ seeds, ∀ y ∈ seeds, x.empty = false → y.empty = false →
    x.clocktime = y.clocktime → x = y

theorem empty_ofSeed (hash : Bytes → UInt64) (seed : Seed) :
    (HashSpace.ofSeed hash seed).empty = seed.empty := rfl

/-- An update puts the seed into the register, unless it has no active node. -/
theorem Holds.update (h : Holds hash hs o) (hC : StrictTotal C)
    (ho : ∀ e, o = some e → e.clocktime ∈ C) (hv : seed.empty = false → seed.clocktime ∈ C)
    (hinj : ∀ e, o = some e → seed.empty = false → e.clocktime = seed.clocktime → e = seed) :
    Holds hash (Pending.update hash hs seed)
      (if seed.empty then o else put Seed.clocktime o seed) := by
  cases o with
  | none =>
    have hempty : hs.empty = true := h
    rw [Pending.update, if_pos (by simp [hempty])]
    cases hseed : seed.empty with
    | true => exact (empty_ofSeed hash seed).trans hseed
    | false => exact ⟨hseed, rfl⟩
  | some e =>
    obtain ⟨he, rfl⟩ := h
    have hec := ho e rfl
    unfold Pending.update
    rw [empty_ofSeed, he]
    cases hseed : seed.empty with
    | true =>
      rw [if_neg (by simp)]
      exact ⟨he, rfl⟩
    | false =>
      have hvc := hv hseed
      have hct : (HashSpace.ofSeed hash e).clocktime = e.clocktime := rfl
      simp only [hct, Bool.false_or, Bool.not_false, Bool.and_true, decide_eq_true_eq,
        Bool.false_eq_true, if_false, put, Option.all_some]
      obtain heq | hlt | hgt := hC.total _ hec _ hvc
      · rw [hinj e rfl hseed heq, if_neg (hC.irrefl _ hvc), ite_self]
        exact ⟨hseed, rfl⟩
      · have hle : e.clocktime ≤ seed.clocktime := fun h =>
          hC.irrefl _ hec (hC.trans _ hec _ hvc _ hec hlt h)
        rw [if_pos hle, if_pos hlt]
        exact ⟨hseed, rfl⟩
      · have hnot : ¬ e.clocktime < seed.clocktime := fun h =>
          hC.irrefl _ hec (hC.trans _ hec _ hvc _ hec h hgt)
        rw [if_neg (fun hle : e.clocktime ≤ seed.clocktime => hle hgt), if_neg hnot]
        exact ⟨he, rfl⟩

/-- The seeds that have an active node. -/
def lively (seeds : List Seed) : List Seed := seeds.filter fun seed => !seed.empty

theorem mem_lively : seed ∈ lively seeds ↔ seed ∈ seeds ∧ seed.empty = false := by
  simp [lively]

/-- After some seeds the newest of them is held. -/
theorem holds_foldl (hash : Bytes → UInt64) (hC : StrictTotal C) (hS : Stamped C seeds) : ∃ o,
    Holds hash (seeds.foldl (Pending.update hash) .init) o ∧
      IsNewest Seed.clocktime {x | x ∈ lively seeds} o := by
  induction seeds using List.reverseRecOn with
  | nil => exact ⟨none, rfl, by ext; simp [lively]⟩
  | append_singleton seeds seed ih =>
    have hmem : ∀ x ∈ seeds, x ∈ seeds ++ [seed] := fun x => List.mem_append_left _
    have hseed : seed ∈ seeds ++ [seed] := List.mem_append_right _ (List.mem_singleton_self _)
    obtain ⟨o, hold, hnew⟩ := ih ⟨fun x hx => hS.mem x (hmem x hx),
      fun x hx y hy => hS.inj x (hmem x hx) y (hmem y hy)⟩
    have ho : ∀ e, o = some e → e ∈ seeds ∧ e.empty = false := by
      rintro e rfl
      exact mem_lively.1 hnew.1
    rw [List.foldl_append]
    have hput := hold.update hC (fun e he => hS.mem e (hmem e (ho e he).1) (ho e he).2)
      (hS.mem seed hseed) fun e he hv => hS.inj e (hmem e (ho e he).1) seed hseed (ho e he).2 hv
    refine ⟨_, hput, ?_⟩
    cases hv : seed.empty with
    | true =>
      have hset : {x | x ∈ lively (seeds ++ [seed])} = {x | x ∈ lively seeds} := by
        ext x
        simp only [lively, List.filter_append, Set.mem_ofPred_eq]
        simp [hv]
      rw [hset, if_pos rfl]
      exact hnew
    | false =>
      have hset : {x | x ∈ lively (seeds ++ [seed])} = insert seed {x | x ∈ lively seeds} := by
        ext x
        simp only [lively, List.filter_append, Set.mem_ofPred_eq, Set.mem_insert_iff]
        simp [hv, or_comm]
      rw [hset, if_neg (by simp)]
      refine hnew.put hC (fun x hx => ?_) (hS.mem seed hseed hv) fun x hx heq => ?_
      · obtain ⟨hx, he⟩ := mem_lively.1 hx
        exact hS.mem x (hmem x hx) he
      · obtain ⟨hx, he⟩ := mem_lively.1 hx
        exact hS.inj x (hmem x hx) seed hseed he hv heq

/-- Where some seed has an active node, what is held depends on the seeds only. -/
theorem foldl_update_eq {seeds' : List Seed} (hC : StrictTotal C) (hS : Stamped C seeds)
    (hsame : ∀ x, x ∈ seeds ↔ x ∈ seeds') (hne : ∃ x ∈ seeds, x.empty = false) :
    seeds.foldl (Pending.update hash) .init = seeds'.foldl (Pending.update hash) .init := by
  have hS' : Stamped C seeds' := ⟨fun x hx => hS.mem x ((hsame x).2 hx),
    fun x hx y hy => hS.inj x ((hsame x).2 hx) y ((hsame y).2 hy)⟩
  obtain ⟨o, hold, hnew⟩ := holds_foldl hash hC hS
  obtain ⟨o', hold', hnew'⟩ := holds_foldl hash hC hS'
  have hset : {x | x ∈ lively seeds} = {x | x ∈ lively seeds'} := by
    ext x
    simp only [Set.mem_ofPred_eq, mem_lively, hsame]
  rw [← hset] at hnew'
  obtain rfl := hnew.unique hC (fun x hx => hS.mem x (mem_lively.1 hx).1 (mem_lively.1 hx).2) hnew'
  cases o with
  | none =>
    obtain ⟨x, hx, he⟩ := hne
    have hempty : {x | x ∈ lively seeds} = ∅ := hnew
    have : x ∈ ({x | x ∈ lively seeds} : Set Seed) := mem_lively.2 ⟨hx, he⟩
    rw [hempty] at this
    exact absurd this (Set.notMem_empty x)
  | some e => exact hold.2.trans hold'.2.symm

theorem after_whs (l : List (Seed × Seed)) :
    (after hash l).whs = (l.map Prod.fst).foldl (Pending.update hash) .init := by
  induction l using List.reverseRecOn with
  | nil => rfl
  | append_singleton l p ih => simp [after, List.foldl_append, ← ih, hashSpacePush]

theorem after_rhs (l : List (Seed × Seed)) :
    (after hash l).rhs = (l.map Prod.snd).foldl (Pending.update hash) .init := by
  induction l using List.reverseRecOn with
  | nil => rfl
  | append_singleton l p ih => simp [after, List.foldl_append, ← ih, hashSpacePush]

/-- Gateways that have got the same pushes have the same hash spaces, whatever the order and
however often they came, as soon as there was an active node in one. -/
theorem gateways_agree (hC : StrictTotal C) (hsame : ∀ p, p ∈ l ↔ p ∈ l')
    (hw : Stamped C (l.map Prod.fst)) (hr : Stamped C (l.map Prod.snd)) :
    ((∃ p ∈ l, p.1.empty = false) → (after hash l).whs = (after hash l').whs) ∧
      ((∃ p ∈ l, p.2.empty = false) → (after hash l).rhs = (after hash l').rhs) := by
  have hmap : ∀ (f : Seed × Seed → Seed) (x : Seed), x ∈ l.map f ↔ x ∈ l'.map f := by
    intro f x
    simp only [List.mem_map, hsame]
  refine ⟨fun ⟨p, hp, he⟩ => ?_, fun ⟨p, hp, he⟩ => ?_⟩
  · rw [after_whs, after_whs]
    exact foldl_update_eq hC hw (hmap Prod.fst) ⟨p.1, List.mem_map_of_mem hp, he⟩
  · rw [after_rhs, after_rhs]
    exact foldl_update_eq hC hr (hmap Prod.snd) ⟨p.2, List.mem_map_of_mem hp, he⟩

theorem stamped_two : Stamped {z | z = Sample.oneSeed.clocktime ∨ z = Sample.twoSeed.clocktime}
    [Sample.oneSeed, Sample.twoSeed] := by
  refine ⟨fun x hx _ => ?_, fun x hx y hy _ _ h => ?_⟩
  · simp only [List.mem_cons, List.not_mem_nil, or_false] at hx
    exact hx.imp (congrArg _) (congrArg _)
  · simp only [List.mem_cons, List.not_mem_nil, or_false] at hx hy
    obtain rfl | rfl := hx <;> obtain rfl | rfl := hy
    · rfl
    · exact absurd h (by decide)
    · exact absurd h (by decide)
    · rfl

/-- Two pushes, of which one comes again. -/
def pushes : List (Seed × Seed) :=
  [(Sample.oneSeed, Sample.twoSeed), (Sample.twoSeed, Sample.oneSeed)]

theorem gateways_agree_two : (after Sample.zeroHash pushes).rhs =
    (after Sample.zeroHash ((Sample.twoSeed, Sample.oneSeed) :: pushes)).rhs := by
  have hC := strictTotal_pair (ClockTime.lt_irrefl Sample.oneSeed.clocktime)
    (ClockTime.lt_irrefl Sample.twoSeed.clocktime) (by decide) (by decide)
  have hw : Stamped {z | z = Sample.oneSeed.clocktime ∨ z = Sample.twoSeed.clocktime}
      (pushes.map Prod.fst) := stamped_two
  have hr : Stamped {z | z = Sample.oneSeed.clocktime ∨ z = Sample.twoSeed.clocktime}
      (pushes.map Prod.snd) :=
    ⟨fun x hx => stamped_two.mem x (by simpa [pushes, or_comm] using hx),
      fun x hx y hy => stamped_two.inj x (by simpa [pushes, or_comm] using hx) y
        (by simpa [pushes, or_comm] using hy)⟩
  refine (gateways_agree hC (fun p => ?_) hw hr).2
    ⟨(Sample.oneSeed, Sample.twoSeed), List.mem_cons_self, by decide⟩
  simp only [pushes, List.mem_cons, List.not_mem_nil, or_false]
  tauto

end Spaces

end Kumofs.Gateway
