import Mathlib.Data.List.Basic

/-!
# Memory

Bytes at addresses, and what a range of them reads after another one was written.
-/

/-- The bytes of a memory. -/
def Memory : Type := ℕ → UInt8

namespace Memory

/-- The memory with some bytes put at an address. -/
def write (m : Memory) (a : ℕ) (bs : List UInt8) : Memory :=
  fun x => if a ≤ x then bs[x - a]?.getD (m x) else m x

/-- So many bytes from an address on. -/
def read (m : Memory) (a n : ℕ) : List UInt8 := (List.range n).map fun k => m (a + k)

variable {m : Memory} {a b n : ℕ} {bs : List UInt8}

@[simp] theorem length_read (m : Memory) (a n : ℕ) : (m.read a n).length = n := by
  simp [read]

theorem read_congr {m' : Memory} (h : ∀ x, a ≤ x → x < a + n → m' x = m x) :
    m'.read a n = m.read a n := by
  refine List.map_congr_left fun k hk => h _ (Nat.le_add_right a k) ?_
  have := List.mem_range.1 hk
  omega

theorem read_write_self (m : Memory) (a : ℕ) (bs : List UInt8) :
    (m.write a bs).read a bs.length = bs := by
  refine List.ext_getElem (length_read _ _ _) fun k hk hk' => ?_
  simp [read, write, hk']

/-- Ranges that are apart do not change each other. -/
theorem read_write_of_disjoint (h : a + bs.length ≤ b ∨ b + n ≤ a) :
    (m.write a bs).read b n = m.read b n := by
  refine read_congr fun x hx hx' => ?_
  unfold write
  split_ifs with ha
  · rw [List.getElem?_eq_none (by omega)]
    rfl
  · rfl

theorem read_append (m : Memory) (a k n : ℕ) :
    m.read a (k + n) = m.read a k ++ m.read (a + k) n := by
  simp only [read, List.range_add, List.map_append, List.map_map]
  congr 1
  refine List.map_congr_left fun j _ => ?_
  simp [Nat.add_assoc]

end Memory
