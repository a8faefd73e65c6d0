import Mathlib.Algebra.Ring.Nat
import Mathlib.Data.List.Induction
import Mathlib.Tactic.IntervalCases
import Mathlib.Tactic.Ring

/-!
# Numbers in memory

The bytes of a number as a little-endian host keeps them, the low one first, and the number that
some bytes are. `swap64` turns the eight bytes of a number round, as it is usually written, with
shifts and masks.
-/

namespace Endian

/-- The `w` low bytes of a number, the lowest first. -/
def bytes : ℕ → ℕ → List UInt8
  | 0, _ => []
  | w + 1, n => UInt8.ofNat n :: bytes w (n / 256)

/-- The number that some bytes are, the lowest first. -/
def value : List UInt8 → ℕ
  | [] => 0
  | b :: bs => b.toNat + 256 * value bs

@[simp] theorem length_bytes : ∀ w n : ℕ, (bytes w n).length = w
  | 0, _ => rfl
  | w + 1, n => by rw [bytes, List.length_cons, length_bytes w]

@[simp] theorem bytes_zero : ∀ w : ℕ, bytes w 0 = List.replicate w 0
  | 0 => rfl
  | w + 1 => by
    rw [bytes, Nat.zero_div, bytes_zero w]
    rfl

theorem value_bytes : ∀ w n : ℕ, value (bytes w n) = n % 256 ^ w
  | 0, n => by rw [pow_zero, Nat.mod_one]; rfl
  | w + 1, n => by
    have h : (UInt8.ofNat n).toNat = n % 256 := UInt8.toNat_ofNat'
    rw [bytes, value, value_bytes w, h, pow_succ', Nat.mod_mul]

theorem value_lt : ∀ l : List UInt8, value l < 256 ^ l.length
  | [] => by decide
  | b :: bs => by
    have hb := b.toNat_lt
    have ih := value_lt bs
    rw [value, List.length_cons, pow_succ]
    omega

theorem bytes_value : ∀ l : List UInt8, bytes l.length (value l) = l
  | [] => rfl
  | b :: bs => by
    have hb := b.toNat_lt
    have hdiv : (b.toNat + 256 * value bs) / 256 = value bs := by omega
    rw [List.length_cons, value, bytes, hdiv, bytes_value bs]
    congr 1
    apply UInt8.toNat_inj.1
    rw [UInt8.toNat_ofNat']
    omega

theorem bytes_mod (w n : ℕ) : bytes w (n % 256 ^ w) = bytes w n := by
  have h := bytes_value (bytes w n)
  rwa [length_bytes, value_bytes] at h

theorem take_bytes : ∀ v w n : ℕ, (bytes (v + w) n).take v = bytes v n
  | 0, w, n => by rw [List.take_zero]; rfl
  | v + 1, w, n => by
    rw [show v + 1 + w = v + w + 1 by omega, bytes, List.take_succ_cons, take_bytes v, bytes]

theorem bytes_append : ∀ v w n : ℕ, bytes (v + w) n = bytes v n ++ bytes w (n / 256 ^ v)
  | 0, w, n => by rw [Nat.zero_add, pow_zero, Nat.div_one]; rfl
  | v + 1, w, n => by
    rw [show v + 1 + w = v + w + 1 by omega, bytes, bytes_append v, bytes, List.cons_append,
      Nat.div_div_eq_div_mul, pow_succ']

theorem bytes_eq_map (w n : ℕ) :
    bytes w n = (List.range w).map fun k => UInt8.ofNat (n / 256 ^ k) := by
  induction w generalizing n with
  | zero => rfl
  | succ w ih =>
    rw [bytes, ih, List.range_succ_eq_map, List.map_cons, List.map_map, pow_zero, Nat.div_one]
    congr 2
    funext k
    rw [Function.comp_apply, Nat.div_div_eq_div_mul, ← pow_succ']

/-- The value of bytes with the high one first. -/
theorem value_reverse (l : List UInt8) :
    value l.reverse = l.foldl (fun n b => n * 256 + b.toNat) 0 := by
  induction l using List.reverseRecOn with
  | nil => rfl
  | append_singleton l b ih =>
    rw [List.reverse_append, List.reverse_singleton, List.singleton_append, value, ih,
      List.foldl_append, List.foldl_cons, List.foldl_nil]
    ring

/-! ## Turning the bytes round -/

/-- `bswap64`. -/
def swap64 (x : UInt64) : UInt64 :=
  ((x <<< 56) &&& (0xff00000000000000 : UInt64)) |||
  ((x <<< 40) &&& (0x00ff000000000000 : UInt64)) |||
  ((x <<< 24) &&& (0x0000ff0000000000 : UInt64)) |||
  ((x <<< 8) &&& (0x000000ff00000000 : UInt64)) |||
  ((x >>> 8) &&& (0x00000000ff000000 : UInt64)) |||
  ((x >>> 24) &&& (0x0000000000ff0000 : UInt64)) |||
  ((x >>> 40) &&& (0x000000000000ff00 : UInt64)) |||
  ((x >>> 56) &&& (0x00000000000000ff : UInt64))

/-- The byte of that place. -/
def byte (y : BitVec 64) (k : ℕ) : BitVec 8 := y.extractLsb' (8 * k) 8

section Byte

variable (y z : BitVec 64) (k : ℕ)

theorem byte_or : byte (y ||| z) k = byte y k ||| byte z k := by
  ext i hi
  simp [byte]

variable {k}

/-- A mask of one byte keeps that byte. -/
theorem byte_mask {j : ℕ} (hj : j < 8) (hk : k < 8) :
    byte (y &&& (0xff#64 <<< (8 * j))) k = if k = j then byte y k else 0 := by
  have hone : ∀ i, (0xff#64).getLsbD i = decide (i < 8) := by
    intro i
    rcases Nat.lt_or_ge i 8 with h | h
    · interval_cases i <;> rfl
    · rw [decide_eq_false (by omega), BitVec.getLsbD, Nat.testBit_lt_two_pow]
      calc 255 < 2 ^ 8 := by decide
        _ ≤ 2 ^ i := Nat.pow_le_pow_right (by decide) h
  ext i hi
  rw [byte, BitVec.getElem_extractLsb', BitVec.getLsbD_and, BitVec.getLsbD_shiftLeft, hone]
  split_ifs with hjk
  · subst hjk
    simp [byte, hi]
    omega
  · simp
    omega

/-- A byte that is moved up to the place its mask keeps. -/
theorem byte_shiftLeft {a j : ℕ} (hj : j < 8) (ha : a ≤ j) (hk : k < 8) :
    byte (y <<< (8 * a) &&& (0xff#64 <<< (8 * j))) k = if k = j then byte y (j - a) else 0 := by
  rw [byte_mask _ hj hk]
  split_ifs with hjk
  · subst hjk
    ext i hi
    have h : 8 * k + i - 8 * a = 8 * (k - a) + i := by omega
    have hlt : 8 * k + i < 64 := by omega
    have hle : ¬ 8 * k + i < 8 * a := by omega
    rw [byte, byte, BitVec.getElem_extractLsb', BitVec.getElem_extractLsb',
      BitVec.getLsbD_shiftLeft, h, decide_eq_true hlt, decide_eq_false hle]
    rfl
  · rfl

/-- A byte that is moved down. -/
theorem byte_shiftRight {a j : ℕ} (hj : j < 8) (hk : k < 8) :
    byte (y >>> (8 * a) &&& (0xff#64 <<< (8 * j))) k = if k = j then byte y (j + a) else 0 := by
  rw [byte_mask _ hj hk]
  split_ifs with hjk
  · subst hjk
    ext i hi
    have h : 8 * a + (8 * k + i) = 8 * (k + a) + i := by ring
    rw [byte, byte, BitVec.getElem_extractLsb', BitVec.getElem_extractLsb',
      BitVec.getLsbD_ushiftRight, h]
  · rfl

theorem ofNat_byte (x : UInt64) (k : ℕ) :
    UInt8.ofBitVec (byte x.toBitVec k) = UInt8.ofNat (x.toNat / 256 ^ k) := by
  apply UInt8.toNat_inj.1
  rw [UInt8.toNat_ofNat', show UInt8.ofBitVec (byte x.toBitVec k) = ⟨byte x.toBitVec k⟩ from rfl]
  rw [UInt8.toNat, byte, BitVec.extractLsb'_toNat, Nat.shiftRight_eq_div_pow, pow_mul]
  rfl

end Byte

theorem byte_swap64 (x : UInt64) {k : ℕ} (hk : k < 8) :
    byte (swap64 x).toBitVec k = byte x.toBitVec (7 - k) := by
  have hx : (swap64 x).toBitVec =
      (x.toBitVec <<< (8 * 7) &&& (0xff#64 <<< (8 * 7))) |||
      (x.toBitVec <<< (8 * 5) &&& (0xff#64 <<< (8 * 6))) |||
      (x.toBitVec <<< (8 * 3) &&& (0xff#64 <<< (8 * 5))) |||
      (x.toBitVec <<< (8 * 1) &&& (0xff#64 <<< (8 * 4))) |||
      (x.toBitVec >>> (8 * 1) &&& (0xff#64 <<< (8 * 3))) |||
      (x.toBitVec >>> (8 * 3) &&& (0xff#64 <<< (8 * 2))) |||
      (x.toBitVec >>> (8 * 5) &&& (0xff#64 <<< (8 * 1))) |||
      (x.toBitVec >>> (8 * 7) &&& (0xff#64 <<< (8 * 0))) := rfl
  rw [hx]
  simp only [byte_or]
  rw [byte_shiftLeft _ (by decide) (by decide) hk, byte_shiftLeft _ (by decide) (by decide) hk,
    byte_shiftLeft _ (by decide) (by decide) hk, byte_shiftLeft _ (by decide) (by decide) hk,
    byte_shiftRight _ (by decide) hk, byte_shiftRight _ (by decide) hk,
    byte_shiftRight _ (by decide) hk, byte_shiftRight _ (by decide) hk]
  interval_cases k <;> simp

/-- The bytes of a number that is turned round are its bytes the other way round. -/
theorem bytes_swap64 (x : UInt64) : bytes 8 (swap64 x).toNat = (bytes 8 x.toNat).reverse := by
  have h : ∀ y : UInt64, bytes 8 y.toNat =
      (List.range 8).map fun k => UInt8.ofBitVec (byte y.toBitVec k) := by
    intro y
    rw [bytes_eq_map]
    exact List.map_congr_left fun k _ => (ofNat_byte y k).symm
  rw [h, h, List.map_congr_left fun k hk => congrArg _ (byte_swap64 x (List.mem_range.1 hk))]
  rfl

theorem value_bytes_toNat (x : UInt64) : value (bytes 8 x.toNat) = x.toNat := by
  rw [value_bytes]
  exact Nat.mod_eq_of_lt x.toNat_lt

theorem swap64_value {l : List UInt8} (h : l.length = 8) :
    swap64 (UInt64.ofNat (value l)) = UInt64.ofNat (value l.reverse) := by
  have hlt := value_lt l
  rw [h] at hlt
  have hx : (UInt64.ofNat (value l)).toNat = value l := UInt64.toNat_ofNat_of_lt' hlt
  have hb : bytes 8 (value l) = l := by rw [← h, bytes_value]
  have hs := bytes_swap64 (UInt64.ofNat (value l))
  rw [hx, hb] at hs
  rw [← hs, value_bytes_toNat, UInt64.ofNat_toNat]

theorem swap64_swap64 (x : UInt64) : swap64 (swap64 x) = x := by
  have h : bytes 8 (swap64 (swap64 x)).toNat = bytes 8 x.toNat := by
    rw [bytes_swap64, bytes_swap64, List.reverse_reverse]
  apply UInt64.toNat_inj.1
  rw [← value_bytes_toNat, h, value_bytes_toNat]

end Endian
