import Kumofs.Gate.Cloudy
import Kumofs.Gate.Packet
import Kumofs.Proofs.Record
import Mathlib.Data.List.TakeDrop

/-!
# The value of a get over the binary protocol

The functions that write a response take its lengths as 16 bits. The header and the vectors agree,
so that a packet is always well formed; but a value of 64 KiB or more has lost all but the low bits
of its length, and is cut.
-/

namespace Kumofs.Gate

open Endian

/-! ## Numbers -/

theorem toBe16_eq (x : UInt16) : toBe16 x = (bytes 2 x.toNat).reverse := by
  rw [bytes_eq_map]
  simp [toBe16, List.range_succ]

theorem toBe32_eq (x : UInt32) : toBe32 x = (bytes 4 x.toNat).reverse := by
  rw [bytes_eq_map]
  simp [toBe32, List.range_succ]

theorem ofBe_toBe16 (x : UInt16) : ofBe (toBe16 x) = x.toNat := by
  rw [ofBe_eq, toBe16_eq, List.reverse_reverse, value_bytes]
  exact Nat.mod_eq_of_lt x.toNat_lt

theorem ofBe_toBe32 (x : UInt32) : ofBe (toBe32 x) = x.toNat := by
  rw [ofBe_eq, toBe32_eq, List.reverse_reverse, value_bytes]
  exact Nat.mod_eq_of_lt x.toNat_lt

theorem toBe32_append (x : UInt64) : toBe32 (x >>> 32).toUInt32 ++ toBe32 x.toUInt32 = toBe64 x := by
  have hhi : (x >>> 32).toUInt32.toNat = x.toNat / 256 ^ 4 := by
    have hlt := x.toNat_lt
    rw [UInt64.toNat_toUInt32, UInt64.toNat_shiftRight, Nat.shiftRight_eq_div_pow]
    have h32 : (32 : UInt64).toNat % 64 = 32 := rfl
    rw [h32]
    omega
  rw [toBe32_eq, toBe32_eq, hhi, toBe64_eq, bytes_append 4 4, List.reverse_append,
    UInt64.toNat_toUInt32, show 2 ^ 32 = 256 ^ 4 from rfl, bytes_mod]

/-! ## The header -/

namespace Binary

variable {status : UInt16} {op : UInt8} {keylen : UInt16} {vallen : UInt32} {extralen : UInt8}
  {opaqueId : UInt32} {cas : UInt64}

theorem length_packHeader :
    (packHeader status op keylen vallen extralen opaqueId cas).length = Memproto.headerSize := rfl

theorem parse_packHeader :
    Memproto.Header.parse (packHeader status op keylen vallen extralen opaqueId cas) =
      ⟨0x81, op, keylen, extralen, 0, status, vallen + keylen.toUInt32 + extralen.toUInt32, opaqueId,
        cas⟩ := by
  have hcas : swap64 (Record.load64 (toBe32 (cas >>> 32).toUInt32 ++ toBe32 cas.toUInt32)) =
      cas := by
    have hlen : 8 ≤ (toBe64 cas).length := le_refl 8
    have hload := Record.kumoBe64_load64 hlen
    rw [List.take_of_length_le (le_refl 8), ofBe_toBe64, UInt64.ofNat_toNat] at hload
    rw [toBe32_append]
    exact hload
  have hk : UInt16.ofNat (ofBe (toBe16 keylen)) = keylen := by
    rw [ofBe_toBe16, UInt16.ofNat_toNat]
  have hs : UInt16.ofNat (ofBe (toBe16 status)) = status := by
    rw [ofBe_toBe16, UInt16.ofNat_toNat]
  have h32 : ∀ x, UInt32.ofNat (ofBe (toBe32 x)) = x := by
    intro x
    rw [ofBe_toBe32, UInt32.ofNat_toNat]
  rw [Memproto.Header.parse, Memproto.Header.mk.injEq]
  exact ⟨rfl, rfl, hk, rfl, rfl, hs, h32 _, h32 _, hcas⟩

/-! ## A response -/

theorem flatten_ite (c : Prop) [Decidable c] {b : Bytes} (h : ¬ c → b = []) :
    (if c then [b] else []).flatten = b := by
  split_ifs with hc
  · simp
  · simp [h hc]

section

variable (h : Header) (st : Status) (cas : UInt64) {key val extra : Bytes}
  {vallen16 extralen16 : UInt16}

theorem flatten_sendResponse :
    (sendResponse h st key keylen val vallen16 extra extralen16 cas).flatten =
      packHeader st.code.toUInt16 h.opcode keylen vallen16.toUInt32 extralen16.toUInt8 h.opaqueId
        cas ++ (extra.take extralen16.toNat ++ (key.take keylen.toNat ++ val.take vallen16.toNat)) := by
  have hzero : ∀ {n : UInt16} {b : Bytes}, ¬ n > 0 → b.take n.toNat = [] := by
    intro n b hn
    have h0 : n.toNat = 0 := by
      have := mt UInt16.lt_iff_toNat_lt.2 hn
      rw [UInt16.toNat_zero] at this
      omega
    rw [h0, List.take_zero]
  rw [sendResponse, List.flatten_append, List.flatten_append, List.flatten_append,
    flatten_ite _ hzero, flatten_ite _ hzero, flatten_ite _ hzero, List.flatten_singleton,
    List.append_assoc, List.append_assoc]

/-- The packet of a response: the value as far as its 16 bits of length go. -/
theorem decode_sendResponse (hextra : extra.length = extralen16.toNat)
    (he : extralen16.toNat < 256) (hkey : keylen.toNat ≤ key.length)
    (hval : vallen16.toNat ≤ val.length) :
    Packet.decode (sendResponse h st key keylen val vallen16 extra extralen16 cas).flatten =
      some ⟨⟨0x81, h.opcode, keylen, extralen16.toUInt8, 0, st.code.toUInt16,
        vallen16.toUInt32 + keylen.toUInt32 + extralen16.toUInt8.toUInt32, h.opaqueId, cas⟩,
        extra, key.take keylen.toNat, val.take vallen16.toNat⟩ := by
  have hk := keylen.toNat_lt
  have hv := vallen16.toNat_lt
  have he8 : extralen16.toUInt8.toNat = extralen16.toNat := by
    rw [UInt16.toNat_toUInt8]
    omega
  have hlen : (extra ++ (key.take keylen.toNat ++ val.take vallen16.toNat)).length =
      extralen16.toNat + (keylen.toNat + vallen16.toNat) := by
    rw [List.length_append, List.length_append, List.length_take, List.length_take, hextra]
    omega
  have hbody : (vallen16.toUInt32 + keylen.toUInt32 + extralen16.toUInt8.toUInt32).toNat =
      extralen16.toNat + (keylen.toNat + vallen16.toNat) := by
    rw [UInt32.toNat_add, UInt32.toNat_add, UInt16.toNat_toUInt32, UInt16.toNat_toUInt32,
      UInt8.toNat_toUInt32, he8]
    omega
  have htake : extra.take extralen16.toNat = extra := by rw [← hextra, List.take_length]
  have hheader : ∀ b : Bytes, (packHeader st.code.toUInt16 h.opcode keylen vallen16.toUInt32
      extralen16.toUInt8 h.opaqueId cas ++ b).length = Memproto.headerSize + b.length :=
    fun b => by rw [List.length_append, length_packHeader]
  rw [flatten_sendResponse, htake, Packet.decode, hheader, if_neg (by omega),
    List.take_left' length_packHeader, List.drop_left' length_packHeader, parse_packHeader]
  simp only [hlen, hbody, he8]
  rw [if_neg (by omega), List.take_left' hextra, List.drop_left' hextra, ← List.drop_drop,
    List.drop_left' hextra]
  have hkt : (key.take keylen.toNat).length = keylen.toNat := by
    rw [List.length_take]
    omega
  rw [List.take_left' hkt, List.drop_left' hkt]

end

/-- The flags and the data of a value that a get finds. -/
def found (o : Options) (systemTime : UInt32) (val : Bytes) : Option (Bytes × Bytes) :=
  if o.saveExptime ∧ (val.length < 4 ∨ expired systemTime val) then none
  else
    let val := if o.saveExptime then val.drop 4 else val
    if !o.saveFlag then some ([0, 0, 0, 0], val)
    else if val.length < 2 then none
    else some ([0, 0] ++ val.take 2, val.drop 2)

variable {o : Options} {systemTime : UInt32} {h : Header} {flagKey flagQuiet : Bool} {res : ResGet}
  {val flags data : Bytes}

theorem length_found (hf : found o systemTime val = some (flags, data)) : flags.length = 4 := by
  unfold found at hf
  simp only [] at hf
  generalize (if o.saveExptime then val.drop 4 else val) = rest at hf
  split_ifs at hf with h1 h2 h3
  · cases hf
    rfl
  · cases hf
    rw [List.length_append, List.length_take]
    simp only [List.length_cons, List.length_nil]
    omega

/-- What is sent of a value that is found. -/
theorem responseGetx_found (he : res.error = false) (hv : res.val = some val)
    (hf : found o systemTime val = some (flags, data)) :
    responseGetx o systemTime h flagKey flagQuiet res = sendResponse h .noError res.key
      (if flagKey then UInt16.ofNat res.key.length else 0) data (UInt16.ofNat data.length) flags 4
      res.clocktime := by
  unfold found at hf
  simp only [] at hf
  split at hf
  · cases hf
  · rename_i hlive
    have hshort : (o.saveExptime && decide (val.length < 4)) = false := by
      refine Bool.eq_false_iff.2 fun hc => hlive ?_
      rw [Bool.and_eq_true, decide_eq_true_eq] at hc
      exact ⟨hc.1, .inl hc.2⟩
    have hexp : (o.saveExptime && expired systemTime val) = false := by
      refine Bool.eq_false_iff.2 fun hc => hlive ?_
      rw [Bool.and_eq_true] at hc
      exact ⟨hc.1, .inr hc.2⟩
    unfold responseGetx
    simp only [he, hv, hshort, hexp, Bool.false_eq_true, if_false]
    generalize (if o.saveExptime then val.drop 4 else val) = rest at hf ⊢
    split_ifs at hf with h2 h3
    · cases hf
      rw [if_neg (by simpa using h2)]
    · cases hf
      rw [if_pos (by simpa using h2), if_neg h3]

end Binary

/-! ## The whole value -/

/-- What a client reads: the key, the flags and the data, in a packet that is followed by nothing. -/
def Carries (b key flags data : Bytes) : Prop :=
  ∃ r, Packet.decode b = some r ∧ r.key = key ∧ r.extra = flags ∧ r.value = data ∧
    b.length = Memproto.headerSize + r.header.bodylen.toNat

theorem Packet.length_of_decode {b : Bytes} {r : Packet} (hd : Packet.decode b = some r) :
    b.length = Memproto.headerSize + r.header.bodylen.toNat := by
  unfold Packet.decode at hd
  simp only [] at hd
  split_ifs at hd with h1 h2
  cases hd
  rw [not_or, not_not, List.length_drop] at h2
  simp only []
  omega

open Binary

theorem toNat_ofNat_le (n : ℕ) : (UInt16.ofNat n).toNat ≤ n := by
  rw [UInt16.toNat_ofNat']
  exact Nat.mod_le _ _

theorem take_ofNat {b : Bytes} :
    b.take (UInt16.ofNat b.length).toNat = b ↔ b.length < 2 ^ 16 := by
  rw [List.take_eq_self_iff, UInt16.toNat_ofNat']
  omega

/-- The value is whole where its length fits in 16 bits, and so is the key where it is sent. -/
theorem carries_sendResponse {h : Header} {st : Binary.Status} {key flags data : Bytes}
    {cas : UInt64} (flagKey : Bool) (hf : flags.length = 4) :
    Carries (sendResponse h st key (if flagKey then UInt16.ofNat key.length else 0) data
        (UInt16.ofNat data.length) flags 4 cas).flatten (if flagKey then key else []) flags data ↔
      data.length < 2 ^ 16 ∧ (flagKey = true → key.length < 2 ^ 16) := by
  have hlen : (if flagKey then UInt16.ofNat key.length else 0).toNat ≤ key.length := by
    cases flagKey
    · exact Nat.zero_le _
    · exact toNat_ofNat_le _
  have hd := decode_sendResponse h st cas (show flags.length = (4 : UInt16).toNat from hf)
    (by decide) hlen (toNat_ofNat_le data.length)
  have hkey : key.take (if flagKey then UInt16.ofNat key.length else 0).toNat =
      (if flagKey then key else []) ↔ (flagKey = true → key.length < 2 ^ 16) := by
    cases flagKey
    · simp
    · simpa using take_ofNat
  constructor
  · rintro ⟨r, hr, hrkey, -, hrval, -⟩
    obtain rfl := Option.some.inj (hd.symm.trans hr)
    exact ⟨take_ofNat.1 hrval, hkey.1 hrkey⟩
  · rintro ⟨hval, hk⟩
    exact ⟨_, hd, hkey.2 hk, rfl, take_ofNat.2 hval, Packet.length_of_decode hd⟩

/-- What is sent of a value that is found, over either gate, is the whole of it where it is shorter
than 64 KiB. -/
theorem getx_carries_iff (h : Header) (flagKey flagQuiet : Bool) {res : ResGet} {val : Bytes}
    (he : res.error = false) (hv : res.val = some val) :
    (∀ o systemTime flags data, found o systemTime val = some (flags, data) →
      (Carries (Binary.responseGetx o systemTime h flagKey flagQuiet res).flatten
          (if flagKey then res.key else []) flags data ↔
        data.length < 2 ^ 16 ∧ (flagKey = true → res.key.length < 2 ^ 16))) ∧
    (Carries (Cloudy.responseGetx h flagKey flagQuiet res).flatten
        (if flagKey then res.key else []) [0, 0, 0, 0] val ↔
      val.length < 2 ^ 16 ∧ (flagKey = true → res.key.length < 2 ^ 16)) := by
  constructor
  · intro o systemTime flags data hf
    rw [responseGetx_found he hv hf]
    exact carries_sendResponse flagKey (length_found hf)
  · have hc : Cloudy.responseGetx h flagKey flagQuiet res = sendResponse h .noError res.key
        (if flagKey then UInt16.ofNat res.key.length else 0) val (UInt16.ofNat val.length)
        [0, 0, 0, 0] 4 0 := by
      unfold Cloudy.responseGetx
      simp only [he, hv, Bool.false_eq_true, if_false]
    rw [hc]
    exact carries_sendResponse flagKey rfl

/-- A value of flags and one byte. -/
def smallRes : ResGet := ⟨false, [0x6b], some [0, 0, 0x76], 5⟩

theorem getx_carries_smallRes :
    (∀ o systemTime flags data, found o systemTime [0, 0, 0x76] = some (flags, data) →
      (Carries (Binary.responseGetx o systemTime ⟨0x0c, 7, 0⟩ true false smallRes).flatten
          (if true then smallRes.key else []) flags data ↔
        data.length < 2 ^ 16 ∧ (true = true → smallRes.key.length < 2 ^ 16))) ∧
    (Carries (Cloudy.responseGetx ⟨0x0c, 7, 0⟩ true false smallRes).flatten
        (if true then smallRes.key else []) [0, 0, 0, 0] [0, 0, 0x76] ↔
      [0, 0, 0x76].length < 2 ^ 16 ∧ (true = true → smallRes.key.length < 2 ^ 16)) :=
  getx_carries_iff ⟨0x0c, 7, 0⟩ true false (show smallRes.error = false from rfl) rfl

/-- A value of 64 KiB of zeros is sent without any of its bytes. -/
theorem getx_not_carries : ¬ ∀ (h : Header) (flagKey flagQuiet : Bool) (res : ResGet) (val : Bytes),
    res.error = false → res.val = some val → val.length + res.key.length + 28 < 2 ^ 32 →
      Carries (Cloudy.responseGetx h flagKey flagQuiet res).flatten
        (if flagKey then res.key else []) [0, 0, 0, 0] val := by
  intro hall
  have hlen : (List.replicate (2 ^ 16) (0 : UInt8)).length = 2 ^ 16 := List.length_replicate
  have h := hall ⟨0x00, 0, 0⟩ false false ⟨false, [], some (.replicate (2 ^ 16) 0), 0⟩
    (.replicate (2 ^ 16) 0) rfl rfl (by rw [hlen]; decide)
  have hlt := ((carries_sendResponse false rfl).1 h).1
  rw [hlen] at hlt
  exact absurd hlt (by decide)

end Kumofs.Gate
