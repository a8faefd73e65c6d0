import Kumofs.Proofs.Stream

/-!
# The loop of a receiver ends

`inflate` consumes nothing behind the end of the stream, and the loop takes the end for a success
like any other: it goes round for ever if and only if there is a byte behind the end.
-/

namespace Kumofs.Server.Zconnection

open Codec

variable {σ τ : Type*} {Z : Zlib UInt8 σ τ} {P : Msgpack} {Whole : Bytes → Prop}
  {c : Zconnection τ} {rd wr input s : Bytes}

/-- The receiver has read `rd`, and no stream has ended before its last byte. -/
structure Within (Z : Zlib UInt8 σ τ) (Whole : Bytes → Prop) (rd : Bytes) (c : Zconnection τ) :
    Prop where
  inflated : ∃ wr, Inflated Z c.z rd wr
  last : ∀ s, Whole s → s <+: rd → s = rd

/-- The state after a call of `inflate`. -/
def inflateOnce (Z : Zlib UInt8 σ τ) (P : Msgpack) (c : Zconnection τ) (input : Bytes) :
    Outcome UInt8 τ := Z.inflate c.z input (P.availOut c.calls).toNat

def after (c : Zconnection τ) (r : Outcome UInt8 τ) : Zconnection τ :=
  { c with z := r.state, calls := c.calls + 1, buffer := c.buffer ++ r.out }

theorem inflateAll_end {n : ℕ} {r : Outcome UInt8 τ} (hr : inflateOnce Z P c input = r)
    (hret : r.ret = .ok ∨ r.ret = .streamEnd) (hend : input.drop r.consumed = []) :
    inflateAll Z P (n + 1) c input = some (.ok (c.after r)) := by
  subst hr
  unfold inflateOnce at hret hend ⊢
  simp only [inflateAll, if_pos hret, hend]
  rfl

theorem inflateAll_more {n : ℕ} {r : Outcome UInt8 τ} (hr : inflateOnce Z P c input = r)
    (hret : r.ret = .ok ∨ r.ret = .streamEnd) (hmore : input.drop r.consumed ≠ []) :
    inflateAll Z P (n + 1) c input = inflateAll Z P n (c.after r) (input.drop r.consumed) := by
  subst hr
  unfold inflateOnce at hret hmore ⊢
  obtain ⟨b, bs, hdrop⟩ := List.exists_cons_of_ne_nil hmore
  simp only [inflateAll, if_pos hret, hdrop]
  rfl

theorem inflateAll_error {n : ℕ} {r : Outcome UInt8 τ} (hr : inflateOnce Z P c input = r)
    (hret : ¬ (r.ret = .ok ∨ r.ret = .streamEnd)) :
    inflateAll Z P (n + 1) c input = some (.error "inflate failed") := by
  subst hr
  unfold inflateOnce at hret
  simp only [inflateAll, if_neg hret]

theorem inflated_once (h : Inflated Z c.z rd wr) :
    Inflated Z (c.after (inflateOnce Z P c input)).z
      (rd ++ input.take (inflateOnce Z P c input).consumed)
      (wr ++ (inflateOnce Z P c input).out) := .read h

section

variable (hZ : Decodes Z Whole) (hroom : P.Reserves)

include hZ hroom

/-- A call on some input before the end. -/
theorem Within.advance (h : c.Within Z Whole rd) (hrd : ¬ Whole rd) (hne : input ≠ []) :
    Advances Whole rd input (P.availOut c.calls).toNat (inflateOnce Z P c input) := by
  obtain ⟨wr, hi⟩ := h.inflated
  exact hZ.advance _ _ _ _ _ hi hrd hne (room_pos hroom c.calls)

/-- What has been read since is no more than to the end. -/
theorem Within.step (h : c.Within Z Whole rd) (hrd : ¬ Whole rd) (hne : input ≠ []) :
    (c.after (inflateOnce Z P c input)).Within Z Whole
      (rd ++ input.take (inflateOnce Z P c input).consumed) := by
  obtain ⟨wr, hi⟩ := h.inflated
  refine ⟨⟨_, inflated_once hi⟩, fun s hs hpre => ?_⟩
  rcases List.prefix_or_prefix_of_prefix hpre (List.prefix_append rd _) with hle | hge
  · obtain rfl := h.last s hs hle
    exact absurd hs hrd
  · exact (h.advance hZ hroom hrd hne).not_beyond s hs hge hpre

/-- With nothing behind the end the loop ends; if it throws, the bytes are of no stream. -/
theorem inflateAll_ends {m : ℕ} : ∀ (n : ℕ) {c : Zconnection τ} {rd wr input : Bytes},
    input.length + (m - wr.length) < n → Inflated Z c.z rd wr →
    (∀ z i o, Inflated Z z i o → i.length ≤ (rd ++ input).length → o.length ≤ m) →
    (∀ s, Whole s → s <+: rd → s = rd) → input ≠ [] →
    (∀ s, Whole s → s <+: rd ++ input → s = rd ++ input) →
    (∃ c', inflateAll Z P n c input = some (.ok c') ∧ c'.Within Z Whole (rd ++ input)) ∨
      inflateAll Z P n c input = some (.error "inflate failed") ∧
        ∀ s, Whole s → ¬ (s <+: rd ++ input ∨ rd ++ input <+: s) := by
  intro n
  induction n with
  | zero => exact fun h => absurd h (Nat.not_lt_zero _)
  | succ n ih =>
    intro c rd wr input hn hi hm hlast hne hend
    have hin : c.Within Z Whole rd := ⟨⟨wr, hi⟩, hlast⟩
    have hrd : ¬ Whole rd := fun hrd => hne (by simpa using hend rd hrd (List.prefix_append _ _))
    have hadv := hin.advance hZ hroom hrd hne
    have hstep := hin.step hZ hroom hrd hne
    have hi' := @inflated_once _ _ _ P _ _ _ input hi
    generalize hr : inflateOnce Z P c input = r at hadv hstep hi'
    have hsplit : rd ++ input.take r.consumed ++ input.drop r.consumed = rd ++ input := by
      rw [List.append_assoc, List.take_append_drop]
    by_cases hret : r.ret = .ok ∨ r.ret = .streamEnd
    · by_cases hdrop : input.drop r.consumed = []
      · rw [hdrop, List.append_nil] at hsplit
        rw [hsplit] at hstep
        exact .inl ⟨_, inflateAll_end hr hret hdrop, hstep⟩
      · -- the end of the stream would be that of the input
        have hok : r.ret = .ok := by
          refine hret.resolve_right fun hse => ?_
          have heq := hend _ (hadv.streamEnd_iff.1 hse) ⟨_, hsplit⟩
          rw [← hsplit, List.self_eq_append_right] at heq
          exact hdrop heq
        have hfull : r.out.length = (P.availOut c.calls).toNat := by
          refine (hadv.stop hok).resolve_left fun hall => ?_
          exact hdrop (List.drop_of_length_le hall.ge)
        have hpos := room_pos hroom c.calls
        have hle := hm _ _ _ hi' (by rw [← hsplit]; simp)
        have hmeasure : (input.drop r.consumed).length + (m - (wr ++ r.out).length) < n := by
          rw [List.length_append] at hle
          rw [List.length_drop, List.length_append]
          omega
        have h := ih hmeasure hi' (by rwa [hsplit]) hstep.last hdrop (by rwa [hsplit])
        rw [inflateAll_more hr hret hdrop]
        rwa [hsplit] at h
    · refine .inr ⟨inflateAll_error hr hret, fun s hs hpre => hret ?_⟩
      have hge : rd <+: s := by
        rcases hpre with hpre | hpre
        · rcases List.prefix_or_prefix_of_prefix hpre (List.prefix_append rd _) with hle | hge
          · exact absurd (hlast s hs hle ▸ hs) hrd
          · exact hge
        · exact (List.prefix_append _ _).trans hpre
      exact hadv.accepts s hs hge hpre

/-- With something behind the end it never does. -/
theorem inflateAll_stuck (hs : Whole s) : ∀ (n : ℕ) {c : Zconnection τ} {rd input : Bytes},
    c.Within Z Whole rd → rd <+: s → s <+: rd ++ input → s ≠ rd ++ input →
    inflateAll Z P n c input = none
  | 0, _, _, _, _, _, _, _ => rfl
  | n + 1, c, rd, input, h, hrd, hpre, hne => by
    have hinput : input ≠ [] := by
      rintro rfl
      rw [List.append_nil] at hpre hne
      exact hne (hpre.eq_of_length (Nat.le_antisymm hpre.length_le hrd.length_le))
    obtain ⟨wr, hi⟩ := h.inflated
    have hi' := @inflated_once _ _ _ P _ _ _ input hi
    by_cases hwhole : Whole rd
    · obtain ⟨hret, hzero⟩ := hZ.ended _ _ _ input (P.availOut c.calls).toNat hi hwhole
      rw [← inflateOnce] at hret hzero
      generalize hr : inflateOnce Z P c input = r at hi' hret hzero
      rw [hzero, List.take_zero, List.append_nil] at hi'
      rw [inflateAll_more hr (.inr hret) (by rwa [hzero, List.drop_zero]), hzero, List.drop_zero]
      exact inflateAll_stuck hs n ⟨⟨_, hi'⟩, h.last⟩ hrd hpre hne
    · have hadv := h.advance hZ hroom hwhole hinput
      have hstep := h.step hZ hroom hwhole hinput
      generalize hr : inflateOnce Z P c input = r at hadv hstep hi'
      have hsplit : rd ++ input.take r.consumed ++ input.drop r.consumed = rd ++ input := by
        rw [List.append_assoc, List.take_append_drop]
      have hret := hadv.accepts s hs hrd (.inl hpre)
      have hrd' : rd ++ input.take r.consumed <+: s := by
        rcases List.prefix_or_prefix_of_prefix hpre ⟨_, hsplit⟩ with hle | hge
        · exact hadv.not_beyond s hs hrd hle ▸ List.prefix_refl s
        · exact hge
      have hdrop : input.drop r.consumed ≠ [] := by
        intro hdrop
        rw [hdrop, List.append_nil] at hsplit
        rw [hsplit] at hrd'
        exact hne (hpre.eq_of_length (Nat.le_antisymm hpre.length_le hrd'.length_le))
      rw [inflateAll_more hr hret hdrop]
      exact inflateAll_stuck hs n hstep hrd' (by rwa [hsplit]) (by rwa [hsplit])

end

/-! ## Any reads -/

/-- What the unpacker makes of the buffer does not matter to the stream. -/
theorem submitAll_z : ∀ (n : ℕ) (c : Zconnection τ), (submitAll P n c).z = c.z
  | 0, _ => rfl
  | n + 1, c => by
    unfold submitAll
    rcases P.execute c.buffer with _ | ⟨msg, rest⟩
    · rfl
    · exact submitAll_z n _

/-- More rounds make no difference once the loop has ended. -/
theorem inflateAll_mono {res : Except String (Zconnection τ)} : ∀ {n m : ℕ} {c : Zconnection τ}
    {input : Bytes}, inflateAll Z P n c input = some res → n ≤ m →
      inflateAll Z P m c input = some res
  | n + 1, m + 1, c, input, h, hnm => by
    obtain ⟨r, hr⟩ : ∃ r, inflateOnce Z P c input = r := ⟨_, rfl⟩
    by_cases hret : r.ret = .ok ∨ r.ret = .streamEnd
    · by_cases hdrop : input.drop r.consumed = []
      · rwa [inflateAll_end hr hret hdrop] at h ⊢
      · rw [inflateAll_more hr hret hdrop] at h ⊢
        exact inflateAll_mono h (Nat.le_of_succ_le_succ hnm)
    · rwa [inflateAll_error hr hret] at h ⊢

theorem inflateAll_unique {res res' : Except String (Zconnection τ)} {n m : ℕ}
    (h : inflateAll Z P n c input = some res) (h' : inflateAll Z P m c input = some res') :
    res = res' := by
  rcases Nat.le_total n m with hle | hle
  · exact Option.some.inj ((inflateAll_mono h hle).symm.trans h')
  · exact Option.some.inj (h.symm.trans (inflateAll_mono h' hle))

theorem ends_of_ok {reads : List Read} {n : ℕ} {c' : Zconnection τ}
    (h : inflateAll Z P n c input = some (.ok c')) : c.Ends Z P (.data input :: reads) ↔
      (submitAll P c'.buffer.length c').Ends Z P reads := by
  constructor
  · rintro ⟨rounds, res, hres, hrest⟩
    obtain ⟨res', hres', rfl⟩ := Option.map_eq_some_iff.1 hres
    obtain rfl := inflateAll_unique h hres'
    exact hrest _ rfl
  · intro hrest
    refine ⟨n, .ok (submitAll P c'.buffer.length c'), ?_, ?_⟩
    · simp only [readEvent, h]
      rfl
    · rintro _ ⟨⟩
      exact hrest

/-- Nothing is read. -/
theorem ends_of_none {reads : List Read} {r : Read} (h : r = .again ∨ r = .interrupted) :
    (c.Ends Z P (r :: reads) ↔ c.Ends Z P reads) ∧ readBytes (r :: reads) = readBytes reads := by
  have hread : ∀ rounds, readEvent Z P rounds c r = some (.ok c) := by
    rintro rounds
    rcases h with rfl | rfl <;> rfl
  refine ⟨⟨?_, fun hrest => ⟨0, _, hread 0, ?_⟩⟩, ?_⟩
  · rintro ⟨rounds, res, hres, hrest⟩
    exact hrest c (Option.some.inj (hres.symm.trans (hread rounds)))
  · rintro _ ⟨⟩
    exact hrest
  · rcases h with rfl | rfl <;> rfl

/-- The loops of all reads end, up to the first that throws, if and only if no byte is received
behind the end of a stream. -/
theorem Within.ends_reads (hZ : Decodes Z Whole) (hroom : P.Reserves) :
    ∀ {reads : List Read} {c : Zconnection τ} {rd : Bytes}, c.Within Z Whole rd →
      (∀ r ∈ reads, r.Nonempty) → (c.Ends Z P reads ↔
        ∀ s, Whole s → s <+: rd ++ readBytes reads → s = rd ++ readBytes reads)
  | [], c, rd, h, _ => by
    rw [show readBytes [] = [] from rfl, List.append_nil]
    exact ⟨fun _ => h.last, fun _ => trivial⟩
  | .again :: reads, c, rd, h, hdata => by
    obtain ⟨hends, hbytes⟩ := @ends_of_none _ _ Z P c reads _ (.inl rfl)
    rw [hends, hbytes]
    exact h.ends_reads hZ hroom fun r h => hdata r (List.mem_cons_of_mem _ h)
  | .interrupted :: reads, c, rd, h, hdata => by
    obtain ⟨hends, hbytes⟩ := @ends_of_none _ _ Z P c reads _ (.inr rfl)
    rw [hends, hbytes]
    exact h.ends_reads hZ hroom fun r h => hdata r (List.mem_cons_of_mem _ h)
  | .data input :: reads, c, rd, h, hdata => by
    have hinput : input ≠ [] := hdata (.data input) List.mem_cons_self
    have hdata' : ∀ r ∈ reads, r.Nonempty := fun r h => hdata r (List.mem_cons_of_mem _ h)
    have hbytes : rd ++ readBytes (.data input :: reads) = rd ++ input ++ readBytes reads := by
      rw [List.append_assoc]
      rfl
    rw [hbytes]
    by_cases hend : ∀ s, Whole s → s <+: rd ++ input → s = rd ++ input
    · obtain ⟨wr, hi⟩ := h.inflated
      obtain ⟨m, hm⟩ := hZ.bound (rd ++ input).length
      rcases inflateAll_ends hZ hroom _ (Nat.lt_succ_self _) hi hm h.last hinput hend with
        ⟨c', hc', hin⟩ | ⟨herr, hno⟩
      · rw [ends_of_ok hc']
        have hin' : (submitAll P c'.buffer.length c').Within Z Whole (rd ++ input) := by
          refine ⟨?_, hin.last⟩
          rw [submitAll_z]
          exact hin.inflated
        exact hin'.ends_reads hZ hroom hdata'
      · have hread := congrArg (Option.map fun res => Except.map
          (fun c : Zconnection τ => submitAll P c.buffer.length c) res) herr
        refine iff_of_true ⟨_, _, hread, fun _ h => nomatch h⟩ fun s hs hpre =>
          absurd ?_ (hno s hs)
        exact List.prefix_or_prefix_of_prefix hpre (List.prefix_append _ _)
    · simp only [not_forall] at hend
      obtain ⟨s, hs, hpre, hne⟩ := hend
      have hrd : rd <+: s := by
        rcases List.prefix_or_prefix_of_prefix hpre (List.prefix_append rd _) with hle | hge
        · exact h.last s hs hle ▸ List.prefix_refl s
        · exact hge
      refine iff_of_false ?_ fun hall => ?_
      · rintro ⟨rounds, res, hres, -⟩
        simp only [readEvent, inflateAll_stuck hZ hroom hs rounds h hrd hpre hne] at hres
        exact absurd hres (by simp)
      · have heq := hall s hs (hpre.trans (List.prefix_append _ _))
        have hle := hpre.length_le
        rw [heq, List.length_append] at hle
        have hnil := List.eq_nil_of_length_eq_zero (by omega : (readBytes reads).length = 0)
        rw [hnil, List.append_nil] at heq
        exact hne heq

theorem within_init : (init Z).Within Z Whole [] :=
  ⟨⟨[], .init⟩, fun _ _ hpre => List.prefix_nil.1 hpre⟩

/-- The loop of every read ends, by consuming all or by throwing, if and only if no byte is received
behind the end of a stream. -/
theorem ends_iff (hZ : Decodes Z Whole) (hroom : P.Reserves)
    {reads : List Read} (hdata : ∀ r ∈ reads, r.Nonempty) :
    (init Z).Ends Z P reads ↔ ∀ s, Whole s → s <+: readBytes reads → s = readBytes reads := by
  have h := within_init.ends_reads hZ hroom hdata
  rwa [List.nil_append] at h

section Sample

/-- A byte behind the end. -/
theorem not_ends_extra : Decodes (checked blockSize) Marked ∧
    (oneRecord smallRecord).Reserves ∧
    ¬ (init (checked blockSize)).Ends (checked blockSize) (oneRecord smallRecord)
      [.data [0, 0]] := by
  refine ⟨decodes_checked _, reserves_oneRecord _, ?_⟩
  rintro ⟨rounds, res, hres, -⟩
  have hpre : [0] <+: [] ++ [(0 : UInt8), 0] := ⟨[0], rfl⟩
  have hstuck := inflateAll_stuck (decodes_checked blockSize) (reserves_oneRecord smallRecord)
    (s := [0]) ⟨[], rfl⟩ rounds within_init List.nil_prefix hpre (by decide)
  simp only [readEvent, hstuck] at hres
  exact absurd hres (by simp)

theorem ends_iff_split : (init (checked blockSize)).Ends (checked blockSize)
      (oneRecord smallRecord) [.data [1, 107], .again, .data [0]] ↔
    ∀ s, Marked s → s <+: [1, 107, 0] → s = [1, 107, 0] :=
  ends_iff (decodes_checked blockSize) (reserves_oneRecord _) (by simp [Read.Nonempty])

end Sample

end Kumofs.Server.Zconnection
