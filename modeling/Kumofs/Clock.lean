import Mathlib.Algebra.Ring.Nat
import Mathlib.Order.Basic

/-!
# Clocks

`logic/clock.h` and `logic/clock_logic.h`. A node has a logical clock of 32 bits that wraps and a
physical time in seconds; a clocktime is the two together, the time in the high half. Two
clocktimes less than `TIME_ERROR_MARGIN` seconds apart are compared by the clock, others by the
time.
-/

namespace Kumofs

/-- `TIME_ERROR_MARGIN`, in seconds. -/
def timeErrorMargin : Int32 := 5

/-- `Clock::clock_less`: past a wrap the smaller number is the later one. -/
def clockLess (x y : UInt32) : Bool :=
  if (x < (1 : UInt32) <<< 10 && (1 : UInt32) <<< 22 < y) ||
      (y < (1 : UInt32) <<< 10 && (1 : UInt32) <<< 22 < x) then x > y
  else x < y

structure ClockTime where
  m : UInt64
  deriving DecidableEq, Repr, Inhabited

namespace ClockTime

/-- `ClockTime(uint32_t c, uint32_t t)`. -/
def mk' (c t : UInt32) : ClockTime := ⟨(t.toUInt64 <<< 32) ||| c.toUInt64⟩

/-- `ClockTime(0)`, what a hash space and a progress start with. -/
def zero : ClockTime := ⟨0⟩

def clock (c : ClockTime) : UInt32 := (c.m &&& 0xffffffff).toUInt32

def time (c : ClockTime) : UInt32 := (c.m >>> 32).toUInt32

/-- `before_sec`. -/
def beforeSec (c : ClockTime) (sec : UInt32) : ClockTime := ⟨c.m - (sec.toUInt64 <<< 32)⟩

/-- `clocktime_less`. The difference of the times is taken as an `int`, as the source casts it;
`std::abs` of the least `int` is taken to be that `int` again. -/
def clocktimeLess (x y : ClockTime) : Bool :=
  if (x.time - y.time).toInt32.abs < timeErrorMargin then clockLess x.clock y.clock
  else x.time < y.time

instance : LT ClockTime := ⟨fun x y => clocktimeLess x y = true⟩

/-- `operator<=` is the negation of `operator>`. -/
instance : LE ClockTime := ⟨fun x y => ¬ y < x⟩

instance (x y : ClockTime) : Decidable (x < y) :=
  inferInstanceAs (Decidable (clocktimeLess x y = true))

instance (x y : ClockTime) : Decidable (x ≤ y) := inferInstanceAs (Decidable (¬ y < x))

theorem clock_mk' (c t : UInt32) : (mk' c t).clock = c := by
  apply UInt32.toBitVec_inj.1
  ext i hi
  have hall : (4294967295#32)[i] = true := by
    rw [show 4294967295#32 = BitVec.allOnes 32 from rfl, BitVec.getElem_allOnes]
  simp [mk', clock, hall]

theorem time_mk' (c t : UInt32) : (mk' c t).time = t := by
  apply UInt32.toBitVec_inj.1
  ext i hi
  have h1 : 32 + i < 64 := by omega
  have h2 : i < 64 := by omega
  have hi' : t.toBitVec.getLsbD i = t.toBitVec[i] := BitVec.getLsbD_eq_getElem hi
  simp [mk', time, h1, h2, hi']

end ClockTime

/-- `clock_logic`: the node's clock and the time it last read. -/
structure ClockLogic where
  clock : UInt32
  time : UInt32
  deriving DecidableEq, Repr

namespace ClockLogic

/-- `clock_update`: the clock moves up to a later one a message carries. -/
def clockUpdate (c : ClockLogic) (o : UInt32) : ClockLogic :=
  if clockLess c.clock o then { c with clock := o } else c

/-- `clocktime_now`. -/
def clocktimeNow (c : ClockLogic) : ClockTime := .mk' c.clock c.time

/-- `clock_incr`: the clock before the increment. -/
def clockIncr (c : ClockLogic) : UInt32 × ClockLogic :=
  (c.clock, { c with clock := c.clock + 1 })

/-- `clock_incr_clocktime`. -/
def clockIncrClocktime (c : ClockLogic) : ClockTime × ClockLogic :=
  (.mk' c.clock c.time, { c with clock := c.clock + 1 })

/-- `clock_update_time`, with what `time(NULL)` returned. -/
def clockUpdateTime (c : ClockLogic) (t : UInt32) : ClockLogic := { c with time := t }

end ClockLogic

end Kumofs
