import Kumofs.Clock
import Kumofs.Lib.Newest
import Mathlib.Data.Set.Basic
import Mathlib.Order.RelClasses

/-!
# The order of clocktimes

Two times are compared only when they are not near, and two clocks only when the times are, past a
wrap the other way round. Neither of the two is an order by itself: nearness is not transitive, and
clocks before, at and after the middle of their range follow each other in a circle. On sets of
clocktimes that stay clear of both, `<` is a strict weak order.
-/

namespace Kumofs

/-! ## Clocks -/

/-- The ranges of clocks that `clock_less` tells apart. -/
inductive Zone
  | low | mid | high
  deriving DecidableEq, Repr

def zone (c : UInt32) : Zone :=
  if c < (1 : UInt32) <<< 10 then .low else if (1 : UInt32) <<< 22 < c then .high else .mid

theorem shiftLeft_ten : ((1 : UInt32) <<< 10).toNat = 1024 := by decide

theorem shiftLeft_twentytwo : ((1 : UInt32) <<< 22).toNat = 4194304 := by decide

theorem zone_eq_low {c : UInt32} : zone c = .low ↔ c.toNat < 1024 := by
  unfold zone
  simp only [UInt32.lt_iff_toNat_lt, shiftLeft_ten, shiftLeft_twentytwo]
  split_ifs <;> simp_all

theorem zone_eq_high {c : UInt32} : zone c = .high ↔ 4194304 < c.toNat := by
  unfold zone
  simp only [UInt32.lt_iff_toNat_lt, shiftLeft_ten, shiftLeft_twentytwo]
  split_ifs <;> simp_all
  omega

theorem zone_eq_mid {c : UInt32} : zone c = .mid ↔ 1024 ≤ c.toNat ∧ c.toNat ≤ 4194304 := by
  unfold zone
  simp only [UInt32.lt_iff_toNat_lt, shiftLeft_ten, shiftLeft_twentytwo]
  split_ifs <;> simp_all

/-- A low clock is one past the wrap for a high one. -/
theorem clockLess_iff {x y : UInt32} : clockLess x y = true ↔
    (x.toNat < y.toNat ∧ ¬ (x.toNat < 1024 ∧ 4194304 < y.toNat)) ∨
      (y.toNat < 1024 ∧ 4194304 < x.toNat) := by
  unfold clockLess
  simp only [UInt32.lt_iff_toNat_lt, shiftLeft_ten, shiftLeft_twentytwo, Bool.or_eq_true,
    Bool.and_eq_true, decide_eq_true_eq]
  split_ifs with h
  · simp only [decide_eq_true_eq]
    omega
  · simp only [decide_eq_true_eq]
    omega

theorem clockLess_irrefl (x : UInt32) : clockLess x x = false := by
  rw [← Bool.not_eq_true, clockLess_iff]
  omega

theorem clockLess_asymm {x y : UInt32} (h : clockLess x y = true) : clockLess y x = false := by
  rw [clockLess_iff] at h
  rw [← Bool.not_eq_true, clockLess_iff]
  omega

theorem clockLess_total {x y : UInt32} (h : clockLess x y = false) (h' : clockLess y x = false) :
    x = y := by
  rw [← Bool.not_eq_true, clockLess_iff] at h h'
  apply UInt32.toNat_inj.1
  omega

/-- Clocks that keep out of one of the zones are ordered. -/
theorem clockLess_trans {x y z : UInt32} {k : Zone} (hx : zone x ≠ k) (hy : zone y ≠ k)
    (hz : zone z ≠ k) (h : clockLess x y = true) (h' : clockLess y z = true) :
    clockLess x z = true := by
  rw [clockLess_iff] at h h' ⊢
  cases k with
  | low =>
    rw [Ne, zone_eq_low] at hx hy hz
    omega
  | mid =>
    rw [Ne, zone_eq_mid] at hx hy hz
    omega
  | high =>
    rw [Ne, zone_eq_high] at hx hy hz
    omega

theorem clockLess_succ {c : UInt32} {k : Zone} (h : zone c ≠ k) (h' : zone (c + 1) ≠ k) :
    clockLess c (c + 1) = true := by
  have hlt := c.toNat_lt
  have hone : (1 : UInt32).toNat = 1 := rfl
  rw [clockLess_iff, UInt32.toNat_add, hone]
  cases k with
  | low =>
    rw [Ne, zone_eq_low] at h h'
    rw [UInt32.toNat_add, hone] at h'
    omega
  | mid =>
    rw [Ne, zone_eq_mid] at h h'
    rw [UInt32.toNat_add, hone] at h'
    omega
  | high =>
    rw [Ne, zone_eq_high] at h h'
    rw [UInt32.toNat_add, hone] at h'
    omega

theorem clockLess_circle {x y z : UInt32} (hx : zone x = .low) (hy : zone y = .mid)
    (hz : zone z = .high) :
    clockLess x y = true ∧ clockLess y z = true ∧ clockLess z x = true := by
  rw [zone_eq_low] at hx
  rw [zone_eq_mid] at hy
  rw [zone_eq_high] at hz
  simp only [clockLess_iff]
  omega

namespace ClockLogic

variable {c : ClockLogic} {o : UInt32}

theorem clockUpdate_time : (c.clockUpdate o).time = c.time := by
  unfold clockUpdate
  split_ifs <;> rfl

theorem clockUpdate_eq : (c.clockUpdate o).clock = c.clock ∨ (c.clockUpdate o).clock = o := by
  unfold clockUpdate
  split_ifs
  · exact .inr rfl
  · exact .inl rfl

theorem clockUpdate_not_less_self : clockLess (c.clockUpdate o).clock c.clock = false := by
  unfold clockUpdate
  split_ifs with h
  · exact clockLess_asymm h
  · exact clockLess_irrefl _

theorem clockUpdate_not_less : clockLess (c.clockUpdate o).clock o = false := by
  unfold clockUpdate
  split_ifs with h
  · exact clockLess_irrefl o
  · exact Bool.eq_false_of_not_eq_true h

end ClockLogic

/-! ## Times -/

/-- The times are less than the margin apart, in the eyes of `clocktime_less`. -/
def near (s t : UInt32) : Bool := (s - t).toInt32.abs < timeErrorMargin

/-- Also near are times a wrap apart, and those whose difference is the least `int`. -/
theorem near_iff {s t : UInt32} : near s t = true ↔
    (s - t).toNat < 5 ∨ 2 ^ 32 - 5 < (s - t).toNat ∨ (s - t).toNat = 2 ^ 31 := by
  have hlt := (s - t).toNat_lt
  have hmin : (s - t).toInt32.toBitVec = BitVec.intMin 32 ↔ (s - t).toNat = 2 ^ 31 := by
    rw [← BitVec.toNat_inj]
    rfl
  have habs : (s - t).toInt32.abs.toInt = (s - t).toInt32.toBitVec.abs.toInt := rfl
  have hmargin : timeErrorMargin.toInt = 5 := rfl
  have hleast : (BitVec.intMin 32).toInt = -2147483648 := rfl
  have hint : (s - t).toInt32.toBitVec.toInt =
      if 2 * (s - t).toNat < 2 ^ 32 then ((s - t).toNat : Int) else (s - t).toNat - 2 ^ 32 :=
    BitVec.toInt_eq_toNat_cond _
  unfold near
  rw [decide_eq_true_eq, Int32.lt_iff_toInt_lt, habs, hmargin, BitVec.toInt_abs_eq_natAbs, hint,
    hleast]
  by_cases h : (s - t).toInt32.toBitVec = BitVec.intMin 32
  · have hd := hmin.1 h
    rw [if_pos h]
    omega
  · have hd := mt hmin.2 h
    rw [if_neg h]
    split_ifs <;> omega

theorem near_iff_toNat {s t : UInt32} : near s t = true ↔
    (s.toNat < t.toNat + 5 ∧ t.toNat < s.toNat + 5) ∨
      s.toNat + 2 ^ 32 < t.toNat + 5 ∨ t.toNat + 2 ^ 32 < s.toNat + 5 ∨
      s.toNat = t.toNat + 2 ^ 31 ∨ t.toNat = s.toNat + 2 ^ 31 := by
  have hs := s.toNat_lt
  have ht := t.toNat_lt
  rw [near_iff, UInt32.toNat_sub]
  omega

theorem near_refl (t : UInt32) : near t t = true := by
  rw [near_iff_toNat]
  omega

theorem near_comm (s t : UInt32) : near s t = near t s := by
  rw [Bool.eq_iff_iff, near_iff_toNat, near_iff_toNat]
  omega

theorem toNat_ne_of_far {s t : UInt32} (h : near s t = false) : s.toNat ≠ t.toNat := by
  rw [← Bool.not_eq_true, near_iff_toNat] at h
  omega

/-! ## Clocktimes -/

namespace ClockTime

variable {x y z : ClockTime} {S : Set ClockTime}

theorem lt_iff_of_near (h : near x.time y.time = true) :
    x < y ↔ clockLess x.clock y.clock = true := by
  have hxy : x < y ↔ clocktimeLess x y = true := Iff.rfl
  have hless : clocktimeLess x y = clockLess x.clock y.clock :=
    if_pos (of_decide_eq_true h)
  rw [hxy, hless]

theorem lt_iff_of_far (h : near x.time y.time = false) : x < y ↔ x.time < y.time := by
  have hxy : x < y ↔ clocktimeLess x y = true := Iff.rfl
  have hless : clocktimeLess x y = decide (x.time < y.time) :=
    if_neg (of_decide_eq_false h)
  rw [hxy, hless, decide_eq_true_eq]

protected theorem lt_irrefl (x : ClockTime) : ¬ x < x := by
  rw [lt_iff_of_near (near_refl x.time), clockLess_irrefl]
  exact Bool.false_ne_true

protected theorem lt_asymm (h : x < y) : ¬ y < x := by
  cases hn : near x.time y.time with
  | true =>
    rw [lt_iff_of_near hn] at h
    rw [lt_iff_of_near (near_comm _ _ ▸ hn), clockLess_asymm h]
    exact Bool.false_ne_true
  | false =>
    rw [lt_iff_of_far hn] at h
    rw [lt_iff_of_far (near_comm _ _ ▸ hn)]
    exact fun h' => Nat.lt_asymm (UInt32.lt_iff_toNat_lt.1 h) (UInt32.lt_iff_toNat_lt.1 h')

theorem incomparable_iff : (¬ x < y ∧ ¬ y < x) ↔
    near x.time y.time = true ∧ x.clock = y.clock := by
  cases hn : near x.time y.time with
  | true =>
    rw [lt_iff_of_near hn, lt_iff_of_near (near_comm _ _ ▸ hn)]
    simp only [Bool.not_eq_true, true_and]
    constructor
    · exact fun h => clockLess_total h.1 h.2
    · intro h
      rw [h, clockLess_irrefl]
      exact ⟨rfl, rfl⟩
  | false =>
    rw [lt_iff_of_far hn, lt_iff_of_far (near_comm _ _ ▸ hn)]
    simp only [Bool.false_eq_true, false_and, iff_false, not_and, Classical.not_not]
    intro h
    have hne := toNat_ne_of_far hn
    rw [UInt32.lt_iff_toNat_lt] at h ⊢
    omega

/-! ### Going back in time -/

theorem toNat_time (c : ClockTime) : c.time.toNat = c.m.toNat / 2 ^ 32 := by
  have h := c.m.toNat_lt
  have h32 : (32 : UInt64).toNat % 64 = 32 := rfl
  unfold time
  rw [UInt64.toNat_toUInt32, UInt64.toNat_shiftRight, h32, Nat.shiftRight_eq_div_pow]
  omega

theorem time_beforeSec (c : ClockTime) (sec : UInt32) : (c.beforeSec sec).time = c.time - sec := by
  have hs := sec.toNat_lt
  have hm := c.m.toNat_lt
  have h32 : (32 : UInt64).toNat % 64 = 32 := rfl
  have hbefore : (c.beforeSec sec).m.toNat =
      (2 ^ 64 - sec.toNat * 2 ^ 32 + c.m.toNat) % 2 ^ 64 := by
    unfold beforeSec
    rw [UInt64.toNat_sub, UInt64.toNat_shiftLeft, h32, Nat.shiftLeft_eq, UInt32.toNat_toUInt64]
    omega
  apply UInt32.toNat_inj.1
  rw [UInt32.toNat_sub, toNat_time, toNat_time, hbefore]
  omega

theorem toNat_time_beforeSec {c : ClockTime} {sec : UInt32} (h : sec.toNat ≤ c.time.toNat) :
    (c.beforeSec sec).time.toNat = c.time.toNat - sec.toNat := by
  have ht := c.time.toNat_lt
  rw [time_beforeSec, UInt32.toNat_sub]
  omega

/-- What is before another clocktime is at most four seconds younger, as long as the two are less
than half the range of the times apart. -/
theorem toNat_time_lt_of_lt (h : x < y) (hxy : x.time.toNat < y.time.toNat + 2 ^ 31) :
    x.time.toNat < y.time.toNat + 5 := by
  have hx := x.time.toNat_lt
  have hy := y.time.toNat_lt
  cases hn : near x.time y.time with
  | true =>
    rw [near_iff_toNat] at hn
    omega
  | false =>
    rw [lt_iff_of_far hn, UInt32.lt_iff_toNat_lt] at h
    omega

theorem lt_of_toNat_time_lt (h : x.time.toNat + 5 ≤ y.time.toNat)
    (hxy : y.time.toNat < x.time.toNat + 2 ^ 31) : x < y := by
  have hn : near x.time y.time = false := by
    rw [← Bool.not_eq_true, near_iff_toNat]
    omega
  rw [lt_iff_of_far hn, UInt32.lt_iff_toNat_lt]
  omega

/-! ### Sets in which the order is one -/

/-- The times of `S` fall apart into groups of times near each other, each group on one side of
any other, and the clocks within a group keep out of one of the zones. -/
structure Comparable (S : Set ClockTime) : Prop where
  near_trans : ∀ x ∈ S, ∀ y ∈ S, ∀ z ∈ S, near x.time y.time = true →
    near y.time z.time = true → near x.time z.time = true
  same_side : ∀ x ∈ S, ∀ y ∈ S, ∀ z ∈ S, near x.time y.time = true →
    near y.time z.time = false → (x.time < z.time ↔ y.time < z.time)
  zones : ∀ x ∈ S, ∀ y ∈ S, ∀ z ∈ S, near x.time y.time = true → near y.time z.time = true →
    ∃ k, zone x.clock ≠ k ∧ zone y.clock ≠ k ∧ zone z.clock ≠ k

theorem Comparable.far_of_near (hS : Comparable S) (hx : x ∈ S) (hy : y ∈ S) (hz : z ∈ S)
    (h : near x.time y.time = true) (h' : near y.time z.time = false) :
    near x.time z.time = false := by
  by_contra hn
  rw [Bool.not_eq_false] at hn
  rw [hS.near_trans y hy x hx z hz (near_comm _ _ ▸ h) hn] at h'
  exact Bool.noConfusion h'

theorem Comparable.trans (hS : Comparable S) (hx : x ∈ S) (hy : y ∈ S) (hz : z ∈ S) (h : x < y)
    (h' : y < z) : x < z := by
  cases hxy : near x.time y.time with
  | true =>
    rw [lt_iff_of_near hxy] at h
    cases hyz : near y.time z.time with
    | true =>
      rw [lt_iff_of_near hyz] at h'
      obtain ⟨k, hkx, hky, hkz⟩ := hS.zones x hx y hy z hz hxy hyz
      rw [lt_iff_of_near (hS.near_trans x hx y hy z hz hxy hyz)]
      exact clockLess_trans hkx hky hkz h h'
    | false =>
      rw [lt_iff_of_far hyz] at h'
      rw [lt_iff_of_far (hS.far_of_near hx hy hz hxy hyz), hS.same_side x hx y hy z hz hxy hyz]
      exact h'
  | false =>
    rw [lt_iff_of_far hxy] at h
    have hyx : near y.time x.time = false := near_comm _ _ ▸ hxy
    have hne : ¬ y.time < x.time := by
      rw [UInt32.lt_iff_toNat_lt] at h ⊢
      omega
    cases hyz : near y.time z.time with
    | true =>
      have hzy : near z.time y.time = true := near_comm _ _ ▸ hyz
      have hzx := hS.far_of_near hz hy hx hzy hyx
      have hside := hS.same_side z hz y hy x hx hzy hyx
      rw [lt_iff_of_far (near_comm _ _ ▸ hzx)]
      have hne' := toNat_ne_of_far hzx
      rw [← hside] at hne
      rw [UInt32.lt_iff_toNat_lt] at hne ⊢
      omega
    | false =>
      rw [lt_iff_of_far hyz] at h'
      have hxz : near x.time z.time = false := by
        by_contra hn
        rw [Bool.not_eq_false] at hn
        have hside := hS.same_side x hx z hz y hy hn (near_comm _ _ ▸ hyz)
        rw [UInt32.lt_iff_toNat_lt] at h h' hside
        rw [UInt32.lt_iff_toNat_lt] at hside
        omega
      rw [lt_iff_of_far hxz]
      rw [UInt32.lt_iff_toNat_lt] at h h' ⊢
      omega

theorem Comparable.isStrictWeakOrder (hS : Comparable S) :
    IsStrictWeakOrder S fun x y => x.1 < y.1 where
  irrefl x := ClockTime.lt_irrefl x.1
  trans x y z := hS.trans x.2 y.2 z.2
  incomp_trans x y z h h' := by
    rw [incomparable_iff] at h h' ⊢
    exact ⟨hS.near_trans x.1 x.2 y.1 y.2 z.1 z.2 h.1 h'.1, h.2.trans h'.2⟩

/-! ## Times and clocks from given ranges -/

/-- The clocktimes with a time of `T` and a clock of `K`. -/
def stamps (T K : Set UInt32) : Set ClockTime := {x | x.time ∈ T ∧ x.clock ∈ K}

/-- What is kept of a list of versions, compared one after the other. -/
def newest (l : List ClockTime) : Option ClockTime := l.foldl (Newest.put id) none

variable {T K : Set UInt32} {k s t u : UInt32}

theorem mk'_mem_stamps (ht : t ∈ T) (hk : k ∈ K) : mk' k t ∈ stamps T K := by
  unfold stamps
  rw [Set.mem_ofPred_eq, time_mk', clock_mk']
  exact ⟨ht, hk⟩

theorem incomparable_mk' : (¬ mk' k s < mk' k t ∧ ¬ mk' k t < mk' k s) ↔ near s t = true := by
  rw [incomparable_iff, time_mk', time_mk', clock_mk', clock_mk']
  exact and_iff_left rfl

theorem mk'_lt_mk'_of_far (h : near s t = false) : mk' k s < mk' k t ↔ s < t := by
  rw [lt_iff_of_far (by rwa [time_mk', time_mk']), time_mk', time_mk']

section Converse

variable (h : IsStrictWeakOrder (stamps T K) fun x y => x.1 < y.1) (hk : k ∈ K)
include h hk

theorem near_trans_of_isStrictWeakOrder (hs : s ∈ T) (ht : t ∈ T) (hu : u ∈ T)
    (hst : near s t = true) (htu : near t u = true) : near s u = true :=
  incomparable_mk'.1 <| h.incomp_trans ⟨_, mk'_mem_stamps hs hk⟩ ⟨_, mk'_mem_stamps ht hk⟩
    ⟨_, mk'_mem_stamps hu hk⟩ (incomparable_mk'.2 hst) (incomparable_mk'.2 htu)

theorem far_of_isStrictWeakOrder (hs : s ∈ T) (ht : t ∈ T) (hu : u ∈ T)
    (hst : near s t = true) (htu : near t u = false) : near s u = false := by
  by_contra hn
  rw [Bool.not_eq_false] at hn
  rw [near_trans_of_isStrictWeakOrder h hk ht hs hu (near_comm _ _ ▸ hst) hn] at htu
  exact Bool.noConfusion htu

theorem lt_of_isStrictWeakOrder (hs : s ∈ T) (ht : t ∈ T) (hu : u ∈ T)
    (hst : near s t = true) (htu : near t u = false) (hlt : t < u) : s < u := by
  have hsu := far_of_isStrictWeakOrder h hk hs ht hu hst htu
  by_contra hus
  have hus : u < s := by
    have hne := toNat_ne_of_far hsu
    rw [UInt32.lt_iff_toNat_lt] at hus ⊢
    omega
  have hts : mk' k t < mk' k s :=
    h.trans ⟨_, mk'_mem_stamps ht hk⟩ ⟨_, mk'_mem_stamps hu hk⟩ ⟨_, mk'_mem_stamps hs hk⟩
      ((mk'_lt_mk'_of_far htu).2 hlt) ((mk'_lt_mk'_of_far (near_comm _ _ ▸ hsu)).2 hus)
  exact (incomparable_mk'.2 hst).2 hts

end Converse

/-- One clock of each zone makes a circle. -/
theorem zone_of_isStrictWeakOrder (h : IsStrictWeakOrder (stamps T K) fun x y => x.1 < y.1)
    (ht : t ∈ T) : ∃ z, ∀ k ∈ K, zone k ≠ z := by
  by_contra hall
  push Not at hall
  obtain ⟨a, ha, hza⟩ := hall .low
  obtain ⟨b, hb, hzb⟩ := hall .mid
  obtain ⟨c, hc, hzc⟩ := hall .high
  obtain ⟨hab, hbc, hca⟩ := clockLess_circle hza hzb hzc
  have hless : ∀ {x y : UInt32}, clockLess x y = true → mk' x t < mk' y t := by
    intro x y hxy
    rw [lt_iff_of_near (by rw [time_mk', time_mk']; exact near_refl t), clock_mk', clock_mk']
    exact hxy
  have hac : mk' a t < mk' c t :=
    h.trans ⟨_, mk'_mem_stamps ht ha⟩ ⟨_, mk'_mem_stamps ht hb⟩ ⟨_, mk'_mem_stamps ht hc⟩
      (hless hab) (hless hbc)
  exact ClockTime.lt_asymm hac (hless hca)

theorem Comparable.of_isStrictWeakOrder
    (h : IsStrictWeakOrder (stamps T K) fun x y => x.1 < y.1) : Comparable (stamps T K) where
  near_trans x hx y hy z hz := near_trans_of_isStrictWeakOrder h hx.2 hx.1 hy.1 hz.1
  same_side x hx y hy z hz hxy hyz := by
    have hxz := far_of_isStrictWeakOrder h hx.2 hx.1 hy.1 hz.1 hxy hyz
    exact ⟨lt_of_isStrictWeakOrder h hx.2 hy.1 hx.1 hz.1 (near_comm _ _ ▸ hxy) hxz,
      lt_of_isStrictWeakOrder h hx.2 hx.1 hy.1 hz.1 hxy hyz⟩
  zones x hx y hy z hz _ _ := by
    obtain ⟨k, hk⟩ := zone_of_isStrictWeakOrder h hx.1
    exact ⟨k, hk _ hx.2, hk _ hy.2, hk _ hz.2⟩

theorem Comparable.isMaximal_newest (hS : Comparable S) {l : List ClockTime}
    (hl : ∀ x ∈ l, x ∈ S) : Newest.IsMaximal id {x | x ∈ l} (newest l) := by
  have hirr : ∀ x ∈ S, ¬ x < x := fun x _ => ClockTime.lt_irrefl x
  have htrans : ∀ x ∈ S, ∀ y ∈ S, ∀ z ∈ S, x < y → y < z → x < z :=
    fun x hx y hy z hz => hS.trans hx hy hz
  have hnone : Newest.IsMaximal (ε := ClockTime) id ∅ none := rfl
  have h := hnone.foldl_put hirr htrans l (fun x hx => absurd hx (Set.notMem_empty x)) hl
  rwa [Set.empty_union] at h

/-- By any two orders of comparison, versions are kept that none is newer than. -/
theorem Comparable.newest_eq (hS : Comparable S) {l l' : List ClockTime} (hl : ∀ x ∈ l, x ∈ S)
    (hmem : ∀ x, x ∈ l ↔ x ∈ l') (hne : l ≠ []) :
    ∃ e e', newest l = some e ∧ newest l' = some e' ∧ e ∈ l ∧ e' ∈ l ∧
      ∀ x ∈ l, ¬ e < x ∧ ¬ e' < x := by
  obtain ⟨x, hx⟩ := List.exists_mem_of_ne_nil l hne
  obtain ⟨e, he, hmem_e, hmax⟩ := (hS.isMaximal_newest hl).exists_of_mem hx
  obtain ⟨e', he', hmem_e', hmax'⟩ :=
    (hS.isMaximal_newest fun x hx => hl x ((hmem x).2 hx)).exists_of_mem ((hmem x).1 hx)
  exact ⟨e, e', he, he', hmem_e, (hmem e').2 hmem_e',
    fun y hy => ⟨hmax y hy, hmax' y ((hmem y).1 hy)⟩⟩

/-- `<` is irreflexive and asymmetric. On the clocktimes of given times and clocks it is a strict
weak order just where these are comparable; where clocktimes are, the newest of a list of them is
defined up to a tie. -/
theorem isStrictWeakOrder_iff_comparable :
    (∀ x : ClockTime, ¬ x < x) ∧ (∀ x y : ClockTime, x < y → ¬ y < x) ∧
    (∀ T K : Set UInt32,
      IsStrictWeakOrder (stamps T K) (fun x y => x.1 < y.1) ↔ Comparable (stamps T K)) ∧
    ∀ S : Set ClockTime, Comparable S → IsStrictWeakOrder S (fun x y => x.1 < y.1) ∧
      ∀ l l' : List ClockTime, (∀ x ∈ l, x ∈ S) → (∀ x, x ∈ l ↔ x ∈ l') → l ≠ [] →
        ∃ e e', newest l = some e ∧ newest l' = some e' ∧ e ∈ l ∧ e' ∈ l ∧
          (∀ x ∈ l, ¬ e < x ∧ ¬ e' < x) ∧
          near e.time e'.time = true ∧ e.clock = e'.clock := by
  refine ⟨ClockTime.lt_irrefl, fun x y => ClockTime.lt_asymm,
    fun T K => ⟨Comparable.of_isStrictWeakOrder, Comparable.isStrictWeakOrder⟩, fun S hS =>
    ⟨hS.isStrictWeakOrder, fun l l' hl hmem hne => ?_⟩⟩
  obtain ⟨e, e', he, he', hel, hel', hmax⟩ := hS.newest_eq hl hmem hne
  exact ⟨e, e', he, he', hel, hel', hmax,
    incomparable_iff.1 ⟨(hmax e' hel').1, (hmax e hel).2⟩⟩

/-- Any clocks but low ones, at times of four seconds. -/
theorem comparable_fourSeconds :
    IsStrictWeakOrder (stamps {t | 1000 ≤ t.toNat ∧ t.toNat < 1004} {k | zone k ≠ .low})
      fun x y => x.1 < y.1 := by
  have hnear : ∀ x ∈ stamps {t | 1000 ≤ t.toNat ∧ t.toNat < 1004} {k | zone k ≠ .low},
      ∀ y ∈ stamps {t | 1000 ≤ t.toNat ∧ t.toNat < 1004} {k | zone k ≠ .low},
      near x.time y.time = true := by
    intro x hx y hy
    have h := hx.1
    have h' := hy.1
    rw [Set.mem_ofPred_eq] at h h'
    rw [near_iff_toNat]
    omega
  refine (isStrictWeakOrder_iff_comparable.2.2.2 _ ⟨?_, ?_, ?_⟩).1
  · exact fun x hx _ _ z hz _ _ => hnear x hx z hz
  · intro x _ y hy z hz _ hyz
    rw [hnear y hy z hz] at hyz
    exact Bool.noConfusion hyz
  · exact fun x hx y hy z hz _ _ => ⟨.low, hx.2, hy.2, hz.2⟩

/-- Two seconds of eight apart compare by the time, and one in between by the clock with both. -/
theorem not_isStrictWeakOrder :
    mk' 30 1000 < mk' 10 1008 ∧ mk' 10 1008 < mk' 20 1004 ∧ ¬ mk' 30 1000 < mk' 20 1004 ∧
      ¬ IsStrictWeakOrder ClockTime (· < ·) := by
  have h1 : mk' 30 1000 < mk' 10 1008 := by decide
  have h2 : mk' 10 1008 < mk' 20 1004 := by decide
  have h3 : ¬ mk' 30 1000 < mk' 20 1004 := by decide
  exact ⟨h1, h2, h3, fun h => h3 (h.trans _ _ _ h1 h2)⟩

end ClockTime

end Kumofs
