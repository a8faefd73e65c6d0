import Kumofs.Proofs.Storage
import Kumofs.Record

/-!
# Packed records

The hash and the clocktime come back from the wire as they were. The meta data is 16 bits wide and
goes through a macro of 64: the two bytes it has end up in the high ones, so that 0 is written and
0 is read whatever it was.
-/

namespace Kumofs.Record

open Endian

/-! ## The fields -/

theorem bytes_kumoBe64 (x : UInt64) : bytes 8 (kumoBe64 x).toNat = (bytes 8 x.toNat).reverse :=
  bytes_swap64 x

theorem toUInt16_kumoBe64 (x : UInt16) : (kumoBe64 x.toUInt64).toUInt16 = 0 := by
  have hx : x.toNat / 256 ^ 2 = 0 := Nat.div_eq_of_lt x.toNat_lt
  have hrev : bytes 2 (kumoBe64 x.toUInt64).toNat = [0, 0] := by
    rw [← take_bytes 2 6, bytes_kumoBe64, UInt16.toNat_toUInt64, bytes_append 2 6, hx, bytes_zero,
      List.reverse_append]
    rfl
  have h := congrArg value hrev
  rw [value_bytes] at h
  apply UInt16.toNat_inj.1
  rw [UInt64.toNat_toUInt16]
  exact h

/-- The macro on the way from memory. -/
theorem kumoBe64_load64 {p : Bytes} (h : 8 ≤ p.length) :
    kumoBe64 (load64 p) = UInt64.ofNat (ofBe (p.take 8)) := by
  have hlen : (p.take 8).length = 8 := by
    rw [List.length_take]
    omega
  rw [ofBe_eq]
  exact swap64_value hlen

/-- The macro on the way to memory. -/
theorem store64_kumoBe64 (x : UInt64) (p : Bytes) :
    store64 (kumoBe64 x) p = toBe64 x ++ p.drop 8 := by
  rw [store64, bytes_kumoBe64, toBe64_eq]

theorem length_toBe64 (x : UInt64) : (toBe64 x).length = 8 := rfl

/-- The fields are those of the model of the storage. -/
theorem clocktimeOf_eq {rawVal : Bytes} (h : valueClocktimeSize ≤ rawVal.length) :
    clocktimeOf rawVal = Storage.clocktimeOf rawVal :=
  congrArg ClockTime.mk (kumoBe64_load64 h)

theorem clocktimeTo_eq (ct : ClockTime) (rawVal : Bytes) :
    clocktimeTo ct rawVal = Storage.clocktimeTo ct ++ rawVal.drop valueClocktimeSize :=
  store64_kumoBe64 ct.m rawVal

theorem hashOf_eq {rawKey : Bytes} (h : keyMetaSize ≤ rawKey.length) :
    hashOf rawKey = Storage.hashOf rawKey := kumoBe64_load64 h

theorem hashTo_eq (hash : UInt64) (rawKey : Bytes) :
    hashTo hash rawKey = toBe64 hash ++ rawKey.drop keyMetaSize := store64_kumoBe64 hash rawKey

/-- No meta data is ever read. -/
theorem metaOf_eq (rawVal : Bytes) : metaOf rawVal = 0 := toUInt16_kumoBe64 _

/-- No meta data is ever written. -/
theorem metaTo_eq (meta' : UInt16) (rawVal : Bytes) : metaTo meta' rawVal =
    rawVal.take valueClocktimeSize ++ ([0, 0] ++ rawVal.drop valueMetaSize) := by
  rw [metaTo, store16, toUInt16_kumoBe64, List.drop_drop]
  rfl

/-- The eight bytes of a number that is read are written again. -/
theorem toBe64_ofBe {p : Bytes} (h : 8 ≤ p.length) :
    toBe64 (UInt64.ofNat (ofBe (p.take 8))) = p.take 8 := by
  have hlen : (p.take 8).reverse.length = 8 := by
    rw [List.length_reverse, List.length_take]
    omega
  have hlt := value_lt (p.take 8).reverse
  rw [hlen] at hlt
  rw [ofBe_eq, toBe64_eq, UInt64.toNat_ofNat_of_lt' hlt]
  nth_rewrite 1 [← hlen]
  rw [bytes_value, List.reverse_reverse]

/-! ## The records -/

section Pack

variable (k : DBKey) (v : DBValue) (mk : Vector UInt8 keyMetaSize) (mv : Vector UInt8 valueMetaSize)

theorem DBKey.ref_pack : (k.pack mk).ref = toBe64 k.hash ++ k.key := by
  have hbody : (k.pack mk).body = toBe64 k.hash ++ k.key := by
    rw [DBKey.pack, hashTo_eq, List.drop_of_length_le (by simp), List.append_nil]
  rw [Raw.ref, hbody, List.take_of_length_le]
  simp only [List.length_append, length_toBe64, DBKey.pack, keyMetaSize]
  omega

/-- A packed value has no meta data. -/
theorem DBValue.ref_pack : (v.pack mv).ref = Storage.clocktimeTo v.clocktime ++ [0, 0] ++ v.val := by
  have hlen : (Storage.clocktimeTo v.clocktime).length = valueClocktimeSize := rfl
  have hbody : (v.pack mv).body = Storage.clocktimeTo v.clocktime ++ [0, 0] ++ v.val := by
    rw [DBValue.pack, clocktimeTo_eq, metaTo_eq, List.take_left' hlen, List.drop_of_length_le,
      List.append_nil]
    rw [List.length_append, hlen, List.length_drop, Vector.length_toList]
    decide
  rw [Raw.ref, hbody, List.take_of_length_le]
  simp only [List.length_append, hlen, DBValue.pack, valueMetaSize, List.length_cons,
    List.length_nil]
  omega

theorem DBKey.unpack_pack : DBKey.unpack (k.pack mk).ref = some k := by
  have hlen : (toBe64 k.hash).length = keyMetaSize := rfl
  have hle : keyMetaSize ≤ (toBe64 k.hash ++ k.key).length := by
    rw [List.length_append, hlen]
    omega
  rw [DBKey.ref_pack, DBKey.unpack, if_neg (by omega), hashOf_eq hle, Storage.hashOf,
    List.take_left' hlen, List.drop_left' hlen, ofBe_toBe64, UInt64.ofNat_toNat]

theorem DBValue.unpack_pack :
    DBValue.unpack (v.pack mv).ref = some { v with meta' := 0 } := by
  have hlen : (Storage.clocktimeTo v.clocktime ++ [0, 0]).length = valueMetaSize := rfl
  have hle : valueMetaSize ≤ (Storage.clocktimeTo v.clocktime ++ [0, 0] ++ v.val).length := by
    rw [List.length_append, hlen]
    omega
  rw [DBValue.ref_pack, DBValue.unpack, if_neg (by omega), metaOf_eq, clocktimeOf_eq
    (by unfold valueMetaSize at hle; omega), List.drop_left' hlen, List.append_assoc,
    Storage.clocktimeOf_append]

theorem DBValue.unpack_pack_iff : DBValue.unpack (v.pack mv).ref = some v ↔ v.meta' = 0 := by
  rw [DBValue.unpack_pack, Option.some.injEq]
  constructor
  · intro h
    rw [← h]
  · intro h
    rw [← h]

end Pack

section Unpack

variable {raw : Bytes} (mk : Vector UInt8 keyMetaSize) (mv : Vector UInt8 valueMetaSize)

theorem DBKey.unpack_eq_none : DBKey.unpack raw = none ↔ raw.length < keyMetaSize := by
  unfold DBKey.unpack
  split_ifs with h <;> simp [h]

theorem DBValue.unpack_eq_none : DBValue.unpack raw = none ↔ raw.length < valueMetaSize := by
  unfold DBValue.unpack
  split_ifs with h <;> simp [h]

theorem DBKey.pack_unpack {k : DBKey} (h : DBKey.unpack raw = some k) : (k.pack mk).ref = raw := by
  unfold DBKey.unpack at h
  split_ifs at h with hlen
  rw [Nat.not_lt] at hlen
  obtain rfl := Option.some.inj h
  rw [DBKey.ref_pack, hashOf_eq hlen, Storage.hashOf, keyMetaSize, toBe64_ofBe hlen,
    List.take_append_drop]

/-- What comes back of a raw value has lost its meta data. -/
theorem DBValue.pack_unpack {v : DBValue} (h : DBValue.unpack raw = some v) : (v.pack mv).ref =
    raw.take valueClocktimeSize ++ [0, 0] ++ raw.drop valueMetaSize := by
  unfold DBValue.unpack at h
  split_ifs at h with hlen
  rw [Nat.not_lt] at hlen
  have hle : 8 ≤ raw.length := by
    unfold valueMetaSize valueClocktimeSize at hlen
    omega
  obtain rfl := Option.some.inj h
  rw [DBValue.ref_pack, clocktimeOf_eq hle, Storage.clocktimeTo, Storage.clocktimeOf,
    valueClocktimeSize, toBe64_ofBe hle]

theorem DBValue.pack_unpack_iff {v : DBValue} (h : DBValue.unpack raw = some v) :
    (v.pack mv).ref = raw ↔ (raw.drop valueClocktimeSize).take 2 = [0, 0] := by
  have hraw : raw = raw.take valueClocktimeSize ++ (raw.drop valueClocktimeSize).take 2 ++
      raw.drop valueMetaSize := by
    rw [List.append_assoc, valueMetaSize, ← List.drop_drop, List.take_append_drop,
      List.take_append_drop]
  rw [DBValue.pack_unpack mv h]
  constructor
  · intro he
    exact (List.append_cancel_left (List.append_cancel_right (he.trans hraw))).symm
  · intro he
    rw [he] at hraw
    exact hraw.symm

/-- Setting the clocktime leaves the bytes behind it. -/
theorem DBValue.rawSetClocktime_snd (v : DBValue) (ct : ClockTime) :
    (v.rawSetClocktime raw ct).2 = Storage.clocktimeTo ct ++ raw.drop valueClocktimeSize :=
  clocktimeTo_eq ct raw

theorem DBValue.unpack_rawSetClocktime {v : DBValue} (h : DBValue.unpack raw = some v)
    (ct : ClockTime) :
    DBValue.unpack (v.rawSetClocktime raw ct).2 = some (v.rawSetClocktime raw ct).1 := by
  have hlen : (Storage.clocktimeTo ct).length = valueClocktimeSize := rfl
  unfold DBValue.unpack at h
  split_ifs at h with hle
  obtain rfl := Option.some.inj h
  have hraw : (Storage.clocktimeTo ct ++ raw.drop valueClocktimeSize).length = raw.length := by
    rw [List.length_append, hlen, List.length_drop]
    unfold valueMetaSize at hle
    omega
  rw [DBValue.rawSetClocktime_snd, DBValue.unpack, hraw, if_neg hle, metaOf_eq, clocktimeOf_eq
    (by rw [hraw]; unfold valueMetaSize at hle; omega), Storage.clocktimeOf_append,
    valueMetaSize, ← List.drop_drop, List.drop_left' hlen, DBValue.rawSetClocktime, metaOf_eq,
    List.drop_drop]

/-- It is `raw_set_clocktime` of a received value. -/
theorem DBValue.rawSetClocktime_received (v : DBValue) (r : Kumofs.DBValue) (ct : ClockTime) :
    (v.rawSetClocktime r.raw ct).2 = (r.setClocktime ct).raw := clocktimeTo_eq ct r.raw

end Unpack

/-! ## The codec -/

/-- What is asked of the codec of records: packing and unpacking are inverse to each other, what is
too short is rejected, and setting the clocktime of a raw value changes its clocktime alone. -/
structure Faithful (k : DBKey) (v : DBValue) (rawKey rawVal : Bytes) (ct : ClockTime)
    (mk : Vector UInt8 keyMetaSize) (mv : Vector UInt8 valueMetaSize) : Prop where
  keyBack : DBKey.unpack (k.pack mk).ref = some k
  valBack : DBValue.unpack (v.pack mv).ref = some v
  rejectKey : DBKey.unpack rawKey = none ↔ rawKey.length < keyMetaSize
  rejectVal : DBValue.unpack rawVal = none ↔ rawVal.length < valueMetaSize
  rawKeyBack : ∀ k', DBKey.unpack rawKey = some k' → (k'.pack mk).ref = rawKey
  rawValBack : ∀ v', DBValue.unpack rawVal = some v' → (v'.pack mv).ref = rawVal
  setClocktime : ∀ v', DBValue.unpack rawVal = some v' →
    (v'.rawSetClocktime rawVal ct).2 = toBe64 ct.m ++ rawVal.drop valueClocktimeSize ∧
      DBValue.unpack (v'.rawSetClocktime rawVal ct).2 = some (v'.rawSetClocktime rawVal ct).1 ∧
      (v'.rawSetClocktime rawVal ct).1 = { v' with clocktime := ct }

variable (k : DBKey) (v : DBValue) (rawKey rawVal : Bytes) (ct : ClockTime)
  (mk : Vector UInt8 keyMetaSize) (mv : Vector UInt8 valueMetaSize)

theorem faithful_iff : Faithful k v rawKey rawVal ct mk mv ↔ v.meta' = 0 ∧
    (valueMetaSize ≤ rawVal.length → (rawVal.drop valueClocktimeSize).take 2 = [0, 0]) := by
  constructor
  · intro h
    refine ⟨(DBValue.unpack_pack_iff v mv).1 h.valBack, fun hlen => ?_⟩
    cases hv : DBValue.unpack rawVal with
    | none => exact absurd (h.rejectVal.1 hv) (by omega)
    | some v' => exact (DBValue.pack_unpack_iff mv hv).1 (h.rawValBack v' hv)
  · rintro ⟨hmeta, hraw⟩
    refine ⟨DBKey.unpack_pack k mk, (DBValue.unpack_pack_iff v mv).2 hmeta, DBKey.unpack_eq_none,
      DBValue.unpack_eq_none, fun k' hk => DBKey.pack_unpack mk hk, fun v' hv => ?_,
      fun v' hv => ⟨DBValue.rawSetClocktime_snd v' ct, DBValue.unpack_rawSetClocktime hv ct, rfl⟩⟩
    refine (DBValue.pack_unpack_iff mv hv).2 (hraw ?_)
    by_contra hlen
    rw [DBValue.unpack_eq_none.2 (by omega)] at hv
    cases hv

/-- A value with meta data 1 comes back with 0. -/
theorem not_faithful_meta : ¬ ∀ k v rawKey rawVal ct mk mv,
    Faithful k v rawKey rawVal ct mk mv := by
  intro h
  have hv := (h ⟨[], 0⟩ ⟨[], ⟨0⟩, 1⟩ [] [] ⟨0⟩ (.replicate _ 0) (.replicate _ 0)).valBack
  revert hv
  decide


end Kumofs.Record
