import Mathlib.Data.Set.Insert
import Mathlib.Order.Defs.Unbundled
import Mathlib.Tactic.Tauto

/-!
# Registers that keep the newest value

A register holds at most one value, and a value that is put into it stays only if it is newer than
the one there, by the stamps of the two. The order of the stamps need only be one on those that
occur.
-/

namespace Newest

variable {ε τ : Type*} [LT τ]

/-- `<` is a strict total order on `C`. -/
structure StrictTotal (C : Set τ) : Prop where
  irrefl : ∀ x ∈ C, ¬ x < x
  trans : ∀ x ∈ C, ∀ y ∈ C, ∀ z ∈ C, x < y → y < z → x < z
  total : ∀ x ∈ C, ∀ y ∈ C, x = y ∨ x < y ∨ y < x

/-- Two stamps in an order. -/
theorem strictTotal_pair {x y : τ} (hx : ¬ x < x) (hy : ¬ y < y) (hxy : x < y) (hyx : ¬ y < x) :
    StrictTotal {z | z = x ∨ z = y} where
  irrefl := by
    rintro z (rfl | rfl)
    · exact hx
    · exact hy
  trans := by
    rintro a (rfl | rfl) b (rfl | rfl) c (rfl | rfl) hab hbc
    · exact hab
    · exact hbc
    · exact absurd hbc hyx
    · exact hxy
    · exact absurd hab hyx
    · exact absurd hab hyx
    · exact hbc
    · exact hab
  total := by
    rintro a (rfl | rfl) b (rfl | rfl)
    · exact .inl rfl
    · exact .inr (.inl hxy)
    · exact .inr (.inr hxy)
    · exact .inl rfl

variable (stamp : ε → τ)

/-- The register after `v` is put. -/
def put [∀ x y : τ, Decidable (x < y)] (o : Option ε) (v : ε) : Option ε :=
  if o.all (stamp · < stamp v) then some v else o

/-- The register holds a value that is not older than `t`. -/
def AtLeast (o : Option ε) (t : τ) : Prop := ∃ e, o = some e ∧ ¬ stamp e < t

instance [∀ x y : τ, Decidable (x < y)] : ∀ (o : Option ε) (t : τ), Decidable (AtLeast stamp o t)
  | none, _ => isFalse fun ⟨_, h, _⟩ => nomatch h
  | some e, t => decidable_of_iff (¬ stamp e < t)
    ⟨fun h => ⟨e, rfl, h⟩, fun ⟨_, he, h⟩ => Option.some.inj he ▸ h⟩

/-- The register holds the newest of `S`. -/
def IsNewest (S : Set ε) : Option ε → Prop
  | none => S = ∅
  | some e => e ∈ S ∧ ∀ x ∈ S, x = e ∨ stamp x < stamp e

/-- The register holds one of `S` that none of `S` is newer than. -/
def IsMaximal (S : Set ε) : Option ε → Prop
  | none => S = ∅
  | some e => e ∈ S ∧ ∀ x ∈ S, ¬ stamp e < stamp x

variable {stamp} {C : Set τ} {S : Set ε} {o o' : Option ε} {v : ε} {t u : τ}

theorem put_stamped [∀ x y : τ, Decidable (x < y)] (ho : ∀ e, o = some e → stamp e ∈ C)
    (hv : stamp v ∈ C) : ∀ e, put stamp o v = some e → stamp e ∈ C := by
  intro e he
  unfold put at he
  split_ifs at he
  · cases he
    exact hv
  · exact ho e he

theorem AtLeast.put [∀ x y : τ, Decidable (x < y)] (hC : StrictTotal C)
    (ho : ∀ e, o = some e → stamp e ∈ C) (hv : stamp v ∈ C) (ht : t ∈ C)
    (h : AtLeast stamp o t) : AtLeast stamp (put stamp o v) t := by
  obtain ⟨e, rfl, he⟩ := h
  unfold Newest.put
  split_ifs with hlt
  · refine ⟨v, rfl, fun hvt => he ?_⟩
    have hlt : stamp e < stamp v := by simpa using hlt
    exact hC.trans _ (ho e rfl) _ hv _ ht hlt hvt
  · exact ⟨e, rfl, he⟩

theorem atLeast_put [∀ x y : τ, Decidable (x < y)] (hC : StrictTotal C) (hv : stamp v ∈ C) :
    AtLeast stamp (put stamp o v) (stamp v) := by
  unfold put
  split_ifs with hlt
  · exact ⟨v, rfl, hC.irrefl _ hv⟩
  · cases o with
    | none => simp at hlt
    | some e => exact ⟨e, rfl, by simpa using hlt⟩

/-- Not older than a value that is itself not older. -/
theorem AtLeast.trans (hC : StrictTotal C) {e : ε} (ho : ∀ e, o = some e → stamp e ∈ C)
    (he : stamp e ∈ C) (ht : t ∈ C) (h : AtLeast stamp o (stamp e)) (h' : ¬ stamp e < t) :
    AtLeast stamp o t := by
  obtain ⟨x, rfl, hx⟩ := h
  refine ⟨x, rfl, fun hxt => ?_⟩
  rcases hC.total _ (ho x rfl) _ he with heq | hlt | hlt
  · exact h' (heq ▸ hxt)
  · exact hx hlt
  · exact h' (hC.trans _ he _ (ho x rfl) _ ht hlt hxt)

theorem IsNewest.put [∀ x y : τ, Decidable (x < y)] (hC : StrictTotal C)
    (hS : ∀ x ∈ S, stamp x ∈ C) (hv : stamp v ∈ C) (hinj : ∀ x ∈ S, stamp x = stamp v → x = v)
    (h : IsNewest stamp S o) : IsNewest stamp (insert v S) (put stamp o v) := by
  cases o with
  | none =>
    have hS0 : S = ∅ := h
    subst hS0
    exact ⟨Set.mem_insert _ _, fun x hx => .inl (by simpa using hx)⟩
  | some e =>
    obtain ⟨he, hmax⟩ := h
    unfold Newest.put
    by_cases hlt : stamp e < stamp v
    · rw [if_pos (by simpa using hlt)]
      refine ⟨Set.mem_insert _ _, fun x hx => ?_⟩
      rcases Set.mem_insert_iff.1 hx with rfl | hx
      · exact .inl rfl
      · rcases hmax x hx with rfl | hxe
        · exact .inr hlt
        · exact .inr (hC.trans _ (hS x hx) _ (hS e he) _ hv hxe hlt)
    · rw [if_neg (by simpa using hlt)]
      refine ⟨Set.mem_insert_of_mem _ he, fun x hx => ?_⟩
      rcases Set.mem_insert_iff.1 hx with rfl | hx
      · rcases hC.total _ (hS e he) _ hv with heq | hlt' | hgt
        · exact .inl (hinj e he heq).symm
        · exact absurd hlt' hlt
        · exact .inr hgt
      · exact hmax x hx

/-- What is put one after the other leaves the newest. -/
theorem IsNewest.foldl_put [∀ x y : τ, Decidable (x < y)] (hC : StrictTotal C) :
    ∀ (l : List ε) {S : Set ε} {o : Option ε}, (∀ x ∈ S ∪ {x | x ∈ l}, stamp x ∈ C) →
      (∀ x ∈ S ∪ {x | x ∈ l}, ∀ y ∈ S ∪ {x | x ∈ l}, stamp x = stamp y → x = y) →
      IsNewest stamp S o → IsNewest stamp (S ∪ {x | x ∈ l}) (l.foldl (Newest.put stamp) o)
  | [], S, o, _, _, h => by
    rw [show S ∪ {x | x ∈ ([] : List ε)} = S by ext x; simp]
    exact h
  | v :: l, S, o, hS, hinj, h => by
    have hset : S ∪ {x | x ∈ v :: l} = insert v S ∪ {x | x ∈ l} := by
      ext x
      simp only [List.mem_cons, Set.mem_union, Set.mem_ofPred_eq, Set.mem_insert_iff]
      tauto
    have hv : v ∈ S ∪ {x | x ∈ v :: l} := .inr List.mem_cons_self
    have hput := h.put hC (fun x hx => hS x (.inl hx)) (hS v hv) fun x hx =>
      hinj x (.inl hx) v hv
    rw [hset] at hS hinj ⊢
    exact foldl_put hC l hS hinj hput

/-- A value that is newer than the newest takes its place. -/
theorem IsNewest.supersede (hC : StrictTotal C) (hS : ∀ x ∈ S, stamp x ∈ C) (hv : stamp v ∈ C)
    (h : IsNewest stamp S o) (hlt : ∀ e, o = some e → stamp e < stamp v) :
    IsNewest stamp (insert v S) (some v) := by
  refine ⟨Set.mem_insert _ _, fun x hx => ?_⟩
  rcases Set.mem_insert_iff.1 hx with rfl | hx
  · exact .inl rfl
  · cases o with
    | none =>
      have hS0 : S = ∅ := h
      rw [hS0] at hx
      exact absurd hx (Set.notMem_empty x)
    | some e =>
      have hev := hlt e rfl
      rcases h.2 x hx with rfl | hxe
      · exact .inr hev
      · exact .inr (hC.trans _ (hS x hx) _ (hS e h.1) _ hv hxe hev)

/-- There is one newest value. -/
theorem IsNewest.unique (hC : StrictTotal C) (hS : ∀ x ∈ S, stamp x ∈ C)
    (h : IsNewest stamp S o) (h' : IsNewest stamp S o') : o = o' := by
  cases o with
  | none =>
    have hS0 : S = ∅ := h
    subst hS0
    cases o' with
    | none => rfl
    | some e => exact absurd h'.1 (Set.notMem_empty e)
  | some e =>
    cases o' with
    | none =>
      have hS0 : S = ∅ := h'
      subst hS0
      exact absurd h.1 (Set.notMem_empty e)
    | some e' =>
      rcases h.2 e' h'.1 with heq | hlt
      · rw [heq]
      · rcases h'.2 e h.1 with heq | hlt'
        · rw [heq]
        · have he := hS e h.1
          exact absurd (hC.trans _ he _ (hS e' h'.1) _ he hlt' hlt) (hC.irrefl _ he)

/-! ## Orders with ties -/

/-- Where stamps may be tied, what is kept is not the newest, but none is newer. -/
theorem IsMaximal.put [∀ x y : τ, Decidable (x < y)] (hirr : ∀ x ∈ C, ¬ x < x)
    (htrans : ∀ x ∈ C, ∀ y ∈ C, ∀ z ∈ C, x < y → y < z → x < z)
    (hS : ∀ x ∈ S, stamp x ∈ C) (hv : stamp v ∈ C) (h : IsMaximal stamp S o) :
    IsMaximal stamp (insert v S) (put stamp o v) := by
  cases o with
  | none =>
    have hS0 : S = ∅ := h
    subst hS0
    refine ⟨Set.mem_insert _ _, fun x hx => ?_⟩
    rw [show x = v by simpa using hx]
    exact hirr _ hv
  | some e =>
    obtain ⟨he, hmax⟩ := h
    unfold Newest.put
    by_cases hlt : stamp e < stamp v
    · rw [if_pos (by simpa using hlt)]
      refine ⟨Set.mem_insert _ _, fun x hx hvx => ?_⟩
      rcases Set.mem_insert_iff.1 hx with rfl | hx
      · exact hirr _ hv hvx
      · exact hmax x hx (htrans _ (hS e he) _ hv _ (hS x hx) hlt hvx)
    · rw [if_neg (by simpa using hlt)]
      refine ⟨Set.mem_insert_of_mem _ he, fun x hx => ?_⟩
      rcases Set.mem_insert_iff.1 hx with rfl | hx
      · exact hlt
      · exact hmax x hx

theorem IsMaximal.foldl_put [∀ x y : τ, Decidable (x < y)] (hirr : ∀ x ∈ C, ¬ x < x)
    (htrans : ∀ x ∈ C, ∀ y ∈ C, ∀ z ∈ C, x < y → y < z → x < z) :
    ∀ (l : List ε) {S : Set ε} {o : Option ε}, (∀ x ∈ S, stamp x ∈ C) →
      (∀ x ∈ l, stamp x ∈ C) → IsMaximal stamp S o →
      IsMaximal stamp (S ∪ {x | x ∈ l}) (l.foldl (Newest.put stamp) o)
  | [], S, o, _, _, h => by
    rw [show S ∪ {x | x ∈ ([] : List ε)} = S by ext x; simp]
    exact h
  | v :: l, S, o, hS, hl, h => by
    have hv : stamp v ∈ C := hl v List.mem_cons_self
    have hS' : ∀ x ∈ insert v S, stamp x ∈ C := by
      intro x hx
      rcases Set.mem_insert_iff.1 hx with rfl | hx
      · exact hv
      · exact hS x hx
    have ih := foldl_put hirr htrans l hS' (fun x hx => hl x (List.mem_cons_of_mem _ hx))
      (h.put hirr htrans hS hv)
    rw [show S ∪ {x | x ∈ v :: l} = insert v S ∪ {x | x ∈ l} by
      ext x
      simp only [List.mem_cons, Set.mem_union, Set.mem_ofPred_eq, Set.mem_insert_iff]
      tauto]
    exact ih

theorem IsMaximal.exists_of_mem {x : ε} (h : IsMaximal stamp S o) (hx : x ∈ S) :
    ∃ e, o = some e ∧ e ∈ S ∧ ∀ x ∈ S, ¬ stamp e < stamp x := by
  cases o with
  | none =>
    rw [show S = ∅ from h] at hx
    exact absurd hx (Set.notMem_empty x)
  | some e => exact ⟨e, rfl, h⟩

end Newest
