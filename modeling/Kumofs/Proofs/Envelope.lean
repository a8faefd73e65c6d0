import Kumofs.Gate.Envelope
import Kumofs.Proofs.Layout
import Kumofs.Proofs.Packet
import Kumofs.Proofs.ReadEvent

/-!
# What is set over one gate is what a get finds over the other

The flags and the time are written to the buffer in place, over bytes of the command that are done
with, and all of the responses take them off alike. The flags have 16 bits there, a response of the
binary protocol has no more for the length of the data, and a sum of 32 bits tells when a value is
over that is set for some seconds.
-/

namespace Kumofs.Gate

/-! ## What a client gets -/

/-- When a value is over, if it ever is. -/
def expiry (systemTime exptime : UInt32) : ℕ :=
  if exptime ≤ relativeMax then systemTime.toNat + exptime.toNat else exptime.toNat

/-- A value that was set at `systemTime` is there at `now`. -/
def Live (systemTime exptime now : UInt32) : Prop :=
  exptime = 0 ∨ now.toNat ≤ expiry systemTime exptime

/-- A `get` or a `gets` of that value, of one key or of several, prints the flags and the data. -/
def Text.Returns (now : UInt32) (val : Bytes) (flags : ℕ) (data : Bytes) : Prop :=
  ∃ f : UInt16, f.toNat = flags ∧ ∀ res : ResGet, res.error = false → res.val = some val →
    ∀ requireCas,
      responseGet ⟨true, true⟩ now requireCas res =
        header requireCas res.key f data.length res.clocktime ++ data ++ text "\r\nEND\r\n" ∧
      ∀ offset vhead, fill ⟨true, true⟩ now requireCas offset res vhead =
        (vhead.set offset
            (some (text "\r\n" ++ header requireCas res.key f data.length res.clocktime))).set
          (offset + 1) (some data)

/-- What a client reads of the answer to a get of that value has the flags and the data. -/
def Binary.Returns (now : UInt32) (val : Bytes) (flags : ℕ) (data : Bytes) : Prop :=
  ∃ extra : Bytes, extra.length = 4 ∧ ofBe extra = flags ∧
    ∀ (h : Header) (flagKey flagQuiet : Bool) (res : ResGet), res.error = false →
      res.val = some val → res.key.length < 2 ^ 16 →
        Carries (responseGetx ⟨true, true⟩ now h flagKey flagQuiet res).flatten
          (if flagKey then res.key else []) extra data

/-! ## What the gates take off a value -/

section Opened

variable {now systemTime exptime : UInt32} {flags16 : UInt16} {val data : Bytes} {flags k : ℕ}

/-- The flags and the data of a value, as all of the responses find them. -/
def opened (now : UInt32) (val : Bytes) : Option (Bytes × Bytes) :=
  if val.length < 6 ∨ expired now val then none else some ((val.drop 4).take 2, val.drop 6)

theorem length_drop_four : (val.drop 4).length < 2 ↔ val.length < 6 := by
  rw [List.length_drop]
  omega

theorem Text.found_eq : Text.found ⟨true, true⟩ now val =
    (opened now val).map fun x => (UInt16.ofNat (ofBe x.1), x.2) := by
  unfold Text.found opened
  simp only [Bool.true_and, if_true, length_drop_four]
  by_cases hexp : expired now val = true
  · simp [hexp]
  · by_cases h6 : val.length < 6
    · simp [hexp, h6]
    · have h4 : ¬ val.length < 4 := by omega
      simp [hexp, h4, h6]

theorem Binary.found_eq : Binary.found ⟨true, true⟩ now val =
    (opened now val).map fun x => ([0, 0] ++ x.1, x.2) := by
  unfold Binary.found opened
  simp only [true_and, if_true, Bool.not_true, Bool.false_eq_true, if_false, length_drop_four]
  by_cases hexp : expired now val = true
  · simp [hexp]
  · by_cases h6 : val.length < 6
    · simp [hexp, h6]
    · have h4 : ¬ val.length < 4 := by omega
      simp [hexp, h4, h6]

/-- The decimal digits of a number tell which it is. -/
theorem Text.dec_injective : Function.Injective Text.dec := by
  intro n n' h
  have hback : ∀ n, (Text.dec n).map (fun b => Char.ofNat b.toNat) = Nat.toDigits 10 n := by
    intro n
    unfold Text.dec
    rw [List.map_map]
    refine (List.map_congr_left fun c hc => ?_).trans (List.map_id _)
    have hdigit := Nat.isDigit_of_mem_toDigits (by decide) (by decide) hc
    have hlt : c.toNat < 256 := by
      exact (Char.isDigit_iff_toNat.1 hdigit).2.trans_lt (by decide)
    show Char.ofNat (UInt8.ofNat c.toNat).toNat = c
    rw [UInt8.toNat_ofNat', Nat.mod_eq_of_lt hlt, Char.ofNat_toNat]
  have hdigits : Nat.toDigits 10 n = Nat.toDigits 10 n' := by rw [← hback, ← hback, h]
  rw [← @Nat.ofDigitChars_ten_toDigits n, hdigits, Nat.ofDigitChars_ten_toDigits]

theorem Text.returns_iff : Text.Returns now val flags data ↔
    ∃ f : UInt16, f.toNat = flags ∧ Text.found ⟨true, true⟩ now val = some (f, data) := by
  constructor
  · rintro ⟨f, hf, hall⟩
    have hfill := (hall ⟨false, [], some val, 0⟩ rfl rfl false).2 0 [none, none]
    unfold Text.fill at hfill
    simp only [Bool.false_eq_true, if_false, Option.bind_some] at hfill
    rcases hx : Text.found ⟨true, true⟩ now val with _ | ⟨f', data'⟩ <;> rw [hx] at hfill
    · simp at hfill
    · simp only [List.set_cons_zero, List.set_cons_succ, List.cons.injEq, Option.some.injEq,
        and_true] at hfill
      obtain ⟨hheader, rfl⟩ := hfill
      have hdec : Text.dec f'.toNat = Text.dec f.toNat := by
        simpa [Text.header] using hheader
      obtain rfl := UInt16.toNat_inj.1 (Text.dec_injective hdec)
      exact ⟨f', hf, rfl⟩
  · rintro ⟨f, hf, hfound⟩
    refine ⟨f, hf, fun res he hv requireCas => ?_⟩
    unfold Text.responseGet Text.fill
    simp only [he, hv, Bool.false_eq_true, if_false, Option.bind_some, hfound]
    exact ⟨trivial, fun _ _ => trivial⟩

/-- A packet has the flags and the data that the client reads of it. -/
theorem carries_unique {b key extra extra' : Bytes} (h : Carries b key extra data) {r : Packet}
    (hd : Packet.decode b = some r) (he : r.extra = extra') :
    extra = extra' ∧ data = r.value := by
  obtain ⟨r', hr', -, hextra, hdata, -⟩ := h
  obtain rfl := Option.some.inj (hd.symm.trans hr')
  exact ⟨hextra.symm.trans he, hdata.symm⟩

theorem Binary.not_carries_nosend {key extra : Bytes} :
    ¬ Carries sendResponseNosend.flatten key extra data := by
  rintro ⟨r, hr, -⟩
  cases hr

theorem Binary.sendResponseNodata_eq (h : Header) (st : Status) :
    sendResponseNodata h st = sendResponse h st [] 0 [] 0 [] 0 0 := rfl

/-- An answer that finds nothing has no flags. -/
theorem Binary.not_carries_nodata {h : Header} {st : Status} {key extra : Bytes}
    (hlen : extra.length = 4) : ¬ Carries (sendResponseNodata h st).flatten key extra data := by
  intro hc
  rw [sendResponseNodata_eq] at hc
  have hzero : (0 : UInt16).toNat ≤ ([] : Bytes).length := Nat.le_refl 0
  have hd := decode_sendResponse h st 0 (show ([] : Bytes).length = (0 : UInt16).toNat from rfl)
    (by decide) hzero hzero
  obtain ⟨rfl, -⟩ := carries_unique hc hd rfl
  cases hlen

theorem Binary.responseGetx_lost {h : Header} {flagKey : Bool} {res : ResGet}
    (he : res.error = false) (hv : res.val = some val)
    (hf : Binary.found ⟨true, true⟩ now val = none) :
    responseGetx ⟨true, true⟩ now h flagKey true res = sendResponseNosend ∨
      responseGetx ⟨true, true⟩ now h flagKey true res = sendResponseNodata h .keyNotFound := by
  unfold responseGetx notFound
  simp only [he, hv, Bool.false_eq_true, if_false, Bool.true_and, if_true, decide_eq_true_eq]
  have hlost : val.length < 6 ∨ expired now val = true := by
    rw [Binary.found_eq, Option.map_eq_none_iff, opened] at hf
    by_contra hno
    rw [if_neg hno] at hf
    cases hf
  by_cases h4 : val.length < 4
  · rw [if_pos h4]
    exact .inr rfl
  rw [if_neg h4]
  by_cases hexp : expired now val = true
  · rw [if_pos hexp]
    exact .inl rfl
  · rw [if_neg hexp, if_pos (length_drop_four.2 (hlost.resolve_right hexp))]
    exact .inl rfl

/-- A response has the data as far as 16 bits of its length go. -/
theorem Binary.returns_iff : Binary.Returns now val flags data ↔ ∃ extra data',
    Binary.found ⟨true, true⟩ now val = some (extra, data') ∧ ofBe extra = flags ∧
      data = data'.take (data'.length % 2 ^ 16) := by
  constructor
  · rintro ⟨extra, hlen, hflags, hall⟩
    have hc := hall ⟨0, 0, 0⟩ false true ⟨false, [], some val, 0⟩ rfl rfl
      (show ([] : Bytes).length < 2 ^ 16 by decide)
    rcases hx : Binary.found ⟨true, true⟩ now val with _ | ⟨extra', data'⟩
    · exfalso
      rcases @responseGetx_lost now val ⟨0, 0, 0⟩ false ⟨false, [], some val, 0⟩ rfl rfl hx with
        hr | hr <;> rw [hr] at hc
      · exact not_carries_nosend hc
      · exact not_carries_nodata hlen hc
    · rw [responseGetx_found rfl rfl hx] at hc
      have hd := decode_sendResponse ⟨0, 0, 0⟩ .noError 0
        (show extra'.length = (4 : UInt16).toNat from length_found hx) (by decide)
        (show (0 : UInt16).toNat ≤ ([] : Bytes).length from Nat.le_refl 0)
        (toNat_ofNat_le data'.length)
      obtain ⟨rfl, hdata⟩ := carries_unique hc hd rfl
      refine ⟨extra, data', rfl, hflags, ?_⟩
      rw [hdata, UInt16.toNat_ofNat']
  · rintro ⟨extra, data', hfound, hflags, rfl⟩
    refine ⟨extra, length_found hfound, hflags, fun h flagKey flagQuiet res he hv hkey => ?_⟩
    rw [responseGetx_found he hv hfound]
    have hlen : (if flagKey then UInt16.ofNat res.key.length else 0).toNat ≤ res.key.length := by
      cases flagKey
      · exact Nat.zero_le _
      · exact toNat_ofNat_le _
    have hd := decode_sendResponse h .noError res.clocktime
      (show extra.length = (4 : UInt16).toNat from length_found hfound) (by decide) hlen
      (toNat_ofNat_le data'.length)
    refine ⟨_, hd, ?_, rfl, ?_, Packet.length_of_decode hd⟩
    · cases flagKey
      · rfl
      · exact take_ofNat.2 hkey
    · rw [UInt16.toNat_ofNat']

/-! ## The value that is set -/

/-- The time that is kept with a value is over. -/
def Lapsed (systemTime exptime now : UInt32) : Prop :=
  exptimeToSystem systemTime exptime ≠ 0 ∧ exptimeToSystem systemTime exptime < now

instance : Decidable (Lapsed systemTime exptime now) := inferInstanceAs (Decidable (_ ∧ _))

theorem lapsed_iff : Lapsed systemTime exptime now ↔ exptime ≠ 0 ∧
    expiry systemTime exptime % 2 ^ 32 ≠ 0 ∧ expiry systemTime exptime % 2 ^ 32 < now.toNat := by
  have hnat : (exptimeToSystem systemTime exptime).toNat =
      if exptime = 0 then 0 else expiry systemTime exptime % 2 ^ 32 := by
    have hlt := exptime.toNat_lt
    unfold exptimeToSystem expiry
    split_ifs with h0 hrel
    · rfl
    · rw [UInt32.toNat_add, Nat.add_comm]
    · omega
  have hzero : exptimeToSystem systemTime exptime = 0 ↔
      (exptimeToSystem systemTime exptime).toNat = 0 := UInt32.toNat_inj.symm
  unfold Lapsed
  rw [ne_eq, hzero, UInt32.lt_iff_toNat_lt, hnat]
  split_ifs with h0
  · simp [h0]
  · simp [h0]

variable (systemTime exptime) in
theorem expiry_lt : expiry systemTime exptime < 2 ^ 32 + 2 ^ 22 := by
  have ht := systemTime.toNat_lt
  have he := exptime.toNat_lt
  unfold expiry
  split_ifs with hrel
  · have hmax := UInt32.le_iff_toNat_le.1 hrel
    rw [show relativeMax.toNat = 2592000 from rfl] at hmax
    omega
  · omega

variable (systemTime) in
theorem expiry_zero : expiry systemTime 0 < 2 ^ 32 := by
  have ht := systemTime.toNat_lt
  unfold expiry
  rw [if_pos (by decide), UInt32.toNat_zero]
  omega

/-- The kept time is not over too early, where the time at which the value is over has 32 bits. -/
theorem not_lapsed_iff : (∀ now, Live systemTime exptime now → ¬ Lapsed systemTime exptime now) ↔
    expiry systemTime exptime ≤ 2 ^ 32 := by
  simp only [lapsed_iff]
  constructor
  · intro hall
    by_contra hgt
    have hlt := expiry_lt systemTime exptime
    have hlast : (UInt32.ofNat (2 ^ 32 - 1)).toNat = 2 ^ 32 - 1 := by decide
    have h0 : exptime ≠ 0 := by
      rintro rfl
      exact hgt (expiry_zero systemTime).le
    refine hall (UInt32.ofNat (2 ^ 32 - 1)) (.inr ?_) ⟨h0, ?_, ?_⟩ <;> try rw [hlast]
    · omega
    · omega
    · omega
  · rintro hle now hlive ⟨h0, hne, hover⟩
    have hlive := hlive.resolve_left h0
    omega

theorem length_envelope : (envelope ⟨true, true⟩ systemTime flags16 exptime data).length =
    data.length + 6 := rfl

theorem take_envelope (hk : 6 ≤ k) :
    (envelope ⟨true, true⟩ systemTime flags16 exptime data).take k =
      envelope ⟨true, true⟩ systemTime flags16 exptime (data.take (k - 6)) := by
  obtain ⟨j, rfl⟩ := Nat.exists_eq_add_of_le' hk
  rfl

theorem expired_envelope :
    expired now (envelope ⟨true, true⟩ systemTime flags16 exptime data) = true ↔
      Lapsed systemTime exptime now := by
  have htake : (envelope ⟨true, true⟩ systemTime flags16 exptime data).take 4 =
      toBe32 (exptimeToSystem systemTime exptime) := rfl
  unfold expired Lapsed
  rw [htake, ofBe_toBe32, UInt32.ofNat_toNat]
  simp

/-- A value of which some bytes are missing at the end. -/
theorem opened_envelope :
    opened now ((envelope ⟨true, true⟩ systemTime flags16 exptime data).take k) =
      if 6 ≤ k ∧ ¬ Lapsed systemTime exptime now then some (toBe16 flags16, data.take (k - 6))
      else none := by
  by_cases hk : 6 ≤ k
  · rw [take_envelope hk, opened]
    by_cases hl : Lapsed systemTime exptime now
    · rw [if_pos (.inr (expired_envelope.2 hl)), if_neg fun h => h.2 hl]
    · refine (if_neg ?_).trans (if_pos ⟨hk, hl⟩).symm
      rintro (hlen | hexp)
      · rw [length_envelope] at hlen
        omega
      · exact hl (expired_envelope.1 hexp)
  · refine (if_pos (.inl ?_)).trans (if_neg fun h => hk h.1).symm
    rw [List.length_take]
    omega

/-- What is printed of a value of which some bytes are missing at the end. -/
theorem Text.returns_envelope {data' : Bytes} :
    Text.Returns now ((envelope ⟨true, true⟩ systemTime flags16 exptime data').take k) flags data ↔
      (6 ≤ k ∧ ¬ Lapsed systemTime exptime now) ∧ flags16.toNat = flags ∧
        data'.take (k - 6) = data := by
  rw [Text.returns_iff, Text.found_eq, opened_envelope]
  split_ifs with hc
  · have hflags : UInt16.ofNat (ofBe (toBe16 flags16)) = flags16 := by
      rw [ofBe_toBe16, UInt16.ofNat_toNat]
    rw [and_iff_right hc]
    simp only [Option.map_some, hflags, Option.some.injEq, Prod.mk.injEq]
    constructor
    · rintro ⟨f, hf, rfl, hdata⟩
      exact ⟨hf, hdata⟩
    · rintro ⟨hf, hdata⟩
      exact ⟨flags16, hf, rfl, hdata⟩
  · simp [hc]

theorem Binary.returns_envelope {data' : Bytes} :
    Binary.Returns now ((envelope ⟨true, true⟩ systemTime flags16 exptime data').take k) flags
        data ↔
      (6 ≤ k ∧ ¬ Lapsed systemTime exptime now) ∧ flags16.toNat = flags ∧
        data = (data'.take (k - 6)).take ((data'.take (k - 6)).length % 2 ^ 16) := by
  rw [Binary.returns_iff, Binary.found_eq, opened_envelope]
  split_ifs with hc
  · have hpad : ∀ x, ofBe ([0, 0] ++ x) = ofBe x := fun _ => rfl
    have hflags : ofBe ([0, 0] ++ toBe16 flags16) = flags16.toNat := by rw [hpad, ofBe_toBe16]
    rw [and_iff_right hc]
    simp only [Option.map_some, Option.some.injEq, Prod.mk.injEq]
    constructor
    · rintro ⟨extra, d, ⟨rfl, rfl⟩, hf, hdata⟩
      exact ⟨hflags.symm.trans hf, hdata⟩
    · rintro ⟨hf, hdata⟩
      exact ⟨_, _, ⟨rfl, rfl⟩, hflags.trans hf, hdata⟩
  · simp [hc]

/-- A value that is set with 16 bits of the flags, and with 32 bits for the length of its data and
of what is before it, is what all gets find. -/
theorem returns_iff (hflags : flags16.toNat = flags % 2 ^ 16) :
    (∀ now, Live systemTime exptime now →
      Text.Returns now ((envelope ⟨true, true⟩ systemTime flags16 exptime data).take
          ((data.length + 6) % 2 ^ 32)) flags data ∧
        Binary.Returns now ((envelope ⟨true, true⟩ systemTime flags16 exptime data).take
          ((data.length + 6) % 2 ^ 32)) flags data) ↔
      flags < 2 ^ 16 ∧ data.length < 2 ^ 16 ∧ expiry systemTime exptime ≤ 2 ^ 32 := by
  simp only [Text.returns_envelope, Binary.returns_envelope]
  constructor
  · intro hall
    obtain ⟨⟨⟨hk, -⟩, hf, htake⟩, -, -, hdata⟩ := hall 0 (.inr (Nat.zero_le _))
    rw [htake] at hdata
    have hlen := congrArg List.length hdata
    rw [List.length_take] at hlen
    refine ⟨by omega, by omega, not_lapsed_iff.1 fun now hlive => (hall now hlive).1.1.2⟩
  · rintro ⟨hf, hlen, hexp⟩ now hlive
    have hk : (data.length + 6) % 2 ^ 32 = data.length + 6 := by omega
    have htake : data.take (data.length + 6 - 6) = data := by
      rw [Nat.add_sub_cancel, List.take_length]
    have hc : 6 ≤ data.length + 6 ∧ ¬ Lapsed systemTime exptime now :=
      ⟨Nat.le_add_left _ _, not_lapsed_iff.2 hexp now hlive⟩
    have hf' : flags16.toNat = flags := by omega
    rw [hk, htake]
    refine ⟨⟨hc, hf', rfl⟩, hc, hf', ?_⟩
    rw [Nat.mod_eq_of_lt hlen, List.take_length]

end Opened

/-! ## In place -/

section Place

open Memproto (read)

variable {mem mem' bytes e : Bytes} {q n p w : ℕ}

theorem read_of_take (h : mem'.take n = mem.take n) (hlen : mem'.length = mem.length)
    (hn : p + w ≤ n) : read mem' p w = read mem p w := by
  have hcut : ∀ mem : Bytes, (mem.drop p).take w = ((mem.take n).drop p).take w := fun mem => by
    rw [List.drop_take, List.take_take, min_eq_left (by omega)]
  unfold Memproto.read
  rw [hlen, hcut mem', h, ← hcut]

/-- The value starts where the first byte was written, and goes on with the data. -/
theorem read_written {L k : ℕ} (h : writeBefore mem q bytes = some mem') (hL : q + L ≤ mem.length)
    (hk : k ≤ bytes.length + L) :
    read mem' (q - bytes.length) k = some ((bytes ++ (mem.drop q).take L).take k) := by
  unfold writeBefore at h
  split_ifs at h with hle
  obtain rfl := Option.some.inj h
  have htake : (mem.take (q - bytes.length)).length = q - bytes.length := by
    rw [List.length_take]
    omega
  unfold Memproto.read
  rw [if_pos ?_, List.drop_left' htake]
  · congr 1
    rw [List.take_append, List.take_append, List.take_take, min_eq_left (by omega)]
  · simp only [List.length_append, htake, List.length_drop]
    omega

end Place

/-! ## What is taken from a client -/

/-- A `set` or a `cas` of a client, and what the gate makes of it. -/
structure Taken where
  key : Bytes
  data : Bytes
  flags : ℕ
  exptime : UInt32
  /-- The buffer from `data()` on, before the value is written and after that. -/
  mem : Bytes
  mem' : Bytes
  /-- Where in the buffer the command is. -/
  first : ℕ
  last : ℕ
  asked : Option (Bytes × Bytes)

/-- Nothing has changed outside of the command. -/
def Taken.Untouched (x : Taken) : Prop :=
  x.mem'.take x.first = x.mem.take x.first ∧ x.mem'.drop x.last = x.mem.drop x.last

/-- The value goes to the gateway under the key, all gets find the flags and the data in it, and the
rest of the buffer is as it was. -/
def Taken.RoundTrips (systemTime : UInt32) (x : Taken) : Prop :=
  ∃ val, x.asked = some (x.key, val) ∧ (∀ now, Live systemTime x.exptime now →
    Text.Returns now val x.flags x.data ∧ Binary.Returns now val x.flags x.data) ∧ x.Untouched

open Memtext Machine in
/-- The commands that the gates take: the last byte of a `set` or a `cas` in any read of any text
connection, and any frame of a set or a replace. -/
inductive Takes (systemTime : UInt32) : Taken → Prop
  | text {as : List TextConn.Act} {s s' : TextConn} {b : StreamBuffer} {bytes key : Bytes} {n : ℕ}
      {m m' : Parsing} {k : Kind} :
      Run (TextConn.step ⟨true, true⟩) Free .init as s → s.status = .running →
      s.buffer.reserveBuffer memtextReserveSize initialBufferSize = some b →
      b.mem.length ≤ addressSpace → BinaryConn.Possible b (.bytes bytes) →
      s' = ({ s with buffer := b } : TextConn).filled bytes →
      s'.parsing.exec ⟨⟨true, true⟩, systemTime⟩ n s'.off = .ok m →
      s'.off + n < s'.buffer.dataSize →
      k = .storage ∨ k = .cas → m.ctx.cs = .dataCr k → m.buf[s'.off + n]? = some lf →
      m.keyBytes 0 = some key →
      m.feed (s'.off + n) ⟨⟨true, true⟩, systemTime⟩ = .ok m' →
      Takes systemTime ⟨key, (m.buf.drop m.ctx.dataPos.toNat).take m.ctx.bytes.toNat,
        m.ctx.flags.toNat, m.ctx.exptime, m.buf, m'.buf, m.start, s'.off + n + 1,
        m'.asked ⟨true, true⟩⟩
  | binary {mem mem' key data : Bytes} {size n : ℕ} {c : Memproto.Call}
      {h : Binary.Header} {k v : Memproto.Region} {flags exptime : UInt32} :
      Memproto.execute mem size 0 = some (.frame 0 n) →
      Memproto.dispatch Memproto.memcacheBinary mem 0 = some (.call c) →
      c.args = .store k v flags exptime →
      BinaryGate.request mem c = some (.set h key data flags exptime) →
      BinaryGate.handler (.memcacheBinary ⟨true, true⟩) systemTime mem c = .done mem' →
      Takes systemTime ⟨key, data, flags.toNat, exptime, mem, mem', 0, n,
        BinaryGate.asked ⟨true, true⟩ mem mem' k v⟩

/-- What is asked of the gateway of a command: the key, and as many bytes of the value as 32 bits
tell. -/
structure Taken.Passed (systemTime : UInt32) (x : Taken) : Prop where
  asked : ∃ flags16 : UInt16, flags16.toNat = x.flags % 2 ^ 16 ∧ x.asked = some (x.key,
    (envelope ⟨true, true⟩ systemTime flags16 x.exptime x.data).take
      ((x.data.length + 6) % 2 ^ 32))
  untouched : x.data.length < 2 ^ 16 → x.Untouched

theorem Taken.Passed.roundTrips_iff {systemTime : UInt32} {x : Taken} (h : x.Passed systemTime) :
    x.RoundTrips systemTime ↔ x.flags < 2 ^ 16 ∧ x.data.length < 2 ^ 16 ∧
      expiry systemTime x.exptime ≤ 2 ^ 32 := by
  obtain ⟨flags16, hflags, hasked⟩ := h.asked
  rw [← returns_iff hflags]
  constructor
  · rintro ⟨val, hval, hreturns, -⟩
    obtain ⟨-, rfl⟩ := Prod.mk.inj (Option.some.inj (hasked.symm.trans hval))
    exact hreturns
  · intro hreturns
    exact ⟨_, hasked, hreturns, h.untouched ((returns_iff hflags).1 hreturns).2.1⟩

/-- The value that the gate asks to set, where the flags and the time were written before the
data. -/
theorem read_envelope {mem mem' data : Bytes} {q L : ℕ} {systemTime exptime : UInt32}
    {flags16 : UInt16}
    (h : writeBefore mem q (envelope ⟨true, true⟩ systemTime flags16 exptime []) = some mem')
    (hL : q + L ≤ mem.length) (hdata : (mem.drop q).take L = data) {len : UInt32}
    (hlen : len.toNat = L % 2 ^ 32) : data.length = L ∧
      Memproto.read mem' (q - 6) (len + 6).toNat =
        some ((envelope ⟨true, true⟩ systemTime flags16 exptime data).take
          ((data.length + 6) % 2 ^ 32)) := by
  have hdl : data.length = L := by
    rw [← hdata, List.length_take, List.length_drop]
    omega
  have hk : (len + 6).toNat = (data.length + 6) % 2 ^ 32 := by
    rw [UInt32.toNat_add, hlen, hdl]
    show (L % 2 ^ 32 + 6) % 2 ^ 32 = _
    omega
  have hle : (len + 6).toNat ≤ 6 + L := by omega
  refine ⟨hdl, ?_⟩
  rw [← hk, ← hdata]
  exact read_written h hL hle

section Text

open Memtext

variable {g : TextGate} {m m' : Parsing} {p : ℕ} {k : Kind}

/-- The end of a command that has data. -/
theorem feed_store (hk : k = .storage ∨ k = .cas) (hcs : m.ctx.cs = .dataCr k)
    (hb : m.buf[p]? = some lf) (h : m.feed p g = .ok m') : m'.ctx = { m.ctx with cs := .final } ∧
      writeBefore m.buf m.ctx.dataPos.toNat
        (g.written m.ctx.flags.toUInt16 m.ctx.exptime) = some m'.buf := by
  have hnext : next m.ctx.cs lf = (k.finish, .final) := by
    rw [hcs]
    rfl
  unfold Parsing.feed at h
  simp only [hb, hnext] at h
  rw [if_neg (by decide)] at h
  rcases hk with rfl | rfl
  · exact call_write h
  · exact call_write h

/-- A `set` or a `cas` over the text protocol. -/
theorem passed_text {systemTime : UInt32} {key : Bytes} (hl : m.ctx.Laid m.start p)
    (hk : k = .storage ∨ k = .cas) (hcs : m.ctx.cs = .dataCr k) (hb : m.buf[p]? = some lf)
    (hkey : m.keyBytes 0 = some key) (h : m.feed p ⟨⟨true, true⟩, systemTime⟩ = .ok m') :
    Taken.Passed systemTime ⟨key, (m.buf.drop m.ctx.dataPos.toNat).take m.ctx.bytes.toNat,
      m.ctx.flags.toNat, m.ctx.exptime, m.buf, m'.buf, m.start, p + 1, m'.asked ⟨true, true⟩⟩ := by
  have hlays := hl.lays
  rw [hcs] at hlays
  obtain ⟨⟨hstart, hroom, hle⟩, hbytes, hlen⟩ := hlays
  have hp := lt_of_getElem? hb
  obtain ⟨hctx, hw⟩ := feed_store hk hcs hb h
  obtain ⟨-, hlength, htake, hdrop⟩ := writeBefore_some hw
  have hsix : (TextGate.written ⟨⟨true, true⟩, systemTime⟩ m.ctx.flags.toUInt16
    m.ctx.exptime).length = 6 := rfl
  rw [hsix] at htake
  have hlen' : m.ctx.dataLen.toNat = m.ctx.bytes.toNat % 2 ^ 32 := by
    rw [hlen, UInt64.toNat_toUInt32]
  obtain ⟨-, hval⟩ := read_envelope hw (by omega) rfl hlen'
  refine ⟨⟨m.ctx.flags.toUInt16, UInt64.toNat_toUInt16 _, ?_⟩, fun _ => ⟨?_, ?_⟩⟩
  · have hkey' : m'.keyBytes 0 = some key := by
      rw [← hkey]
      unfold Parsing.keyBytes
      rw [hctx]
      exact read_of_take (htake (m.ctx.dataPos.toNat - 6) le_rfl) hlength
        (show (m.ctx.keyPos 0).toNat + (m.ctx.keyLen 0).toNat ≤ _ by omega)
    unfold Parsing.asked
    rw [hkey', hctx]
    show Option.bind (Memproto.read m'.buf (m.ctx.dataPos.toNat - 6) (m.ctx.dataLen + 6).toNat)
      (fun val => some (key, val)) = _
    rw [hval]
    rfl
  · exact htake m.start (by omega)
  · exact hdrop (p + 1) (by omega)

end Text

section Binary

open Memproto

variable {mem mem' key data : Bytes} {size n : ℕ} {c : Memproto.Call}
  {h : Binary.Header} {k v : Region} {flags exptime systemTime : UInt32}

theorem caseStore_args {h : Memproto.Header} {n : ℕ}
    (hx : h.caseStore 0 mem = some (some (n, .store k v flags exptime))) :
    h.extralen = 8 ∧ k = h.key 0 ∧ v = h.val 0 := by
  unfold Header.caseStore at hx
  split_ifs at hx with hkey he
  · cases hx
  · cases hx
  · simp only [Option.bind_eq_bind, Option.bind_eq_some_iff] at hx
    obtain ⟨f, -, e, -, hx⟩ := hx
    cases hx
    exact ⟨not_not.1 he, rfl, rfl⟩

/-- A value is given to a callback of a set alone. -/
theorem dispatch_store {callback : ℕ → Bool} (hd : dispatch callback mem 0 = some (.call c))
    (ha : c.args = .store k v flags exptime) : ∃ h, header mem 0 = some h ∧ h.extralen = 8 ∧
      k = h.key 0 ∧ v = h.val 0 := by
  unfold dispatch at hd
  simp only [Option.bind_eq_bind, Option.bind_eq_some_iff] at hd
  obtain ⟨h, hh, hd⟩ := hd
  refine ⟨h, hh, ?_⟩
  have hcall : ∀ {x : Option (Option (ℕ × Args))}, x.map (h.conclude 0) = some (.call c) →
      ∃ n, x = some (some (n, .store k v flags exptime)) := fun hx => by
    obtain ⟨y, rfl, hy⟩ := Option.map_eq_some_iff.1 hx
    obtain ⟨n, rfl, -⟩ := conclude_call hy
    exact ⟨n, by rw [ha]⟩
  -- no other case calls with a value
  revert hd
  refine ite_elim (fun _ hd => by cases hd) fun _ => ?_
  refine ite_elim (fun _ hd => ?_) fun _ => ?_
  · obtain ⟨n, hx, -⟩ := conclude_call (Option.some.inj hd)
    rw [ha, Header.caseGet] at hx
    split_ifs at hx
    cases hx
  refine ite_elim (fun _ hd => ?_) fun _ => ?_
  · obtain ⟨n, hx⟩ := hcall hd
    unfold Header.caseDelete at hx
    split_ifs at hx <;> simp at hx
  refine ite_elim (fun _ hd => ?_) fun _ => ?_
  · obtain ⟨n, hx⟩ := hcall hd
    unfold Header.caseFlush at hx
    split_ifs at hx <;> simp at hx
  refine ite_elim (fun _ hd => ?_) fun _ => ?_
  · obtain ⟨n, hx⟩ := hcall hd
    exact caseStore_args hx
  refine ite_elim (fun _ hd => ?_) fun _ => ?_
  · obtain ⟨n, hx⟩ := hcall hd
    unfold Header.caseCount at hx
    split_ifs at hx
    · cases hx
    · cases hx
    · cases hx
    · simp only [Option.bind_eq_bind, Option.bind_eq_some_iff] at hx
      obtain ⟨_, -, _, -, _, -, hx⟩ := hx
      cases hx
  refine ite_elim (fun _ hd => ?_) fun _ => ?_
  · obtain ⟨n, hx, -⟩ := conclude_call (Option.some.inj hd)
    rw [ha, Header.casePlain] at hx
    split_ifs at hx
    cases hx
  refine ite_elim (fun _ hd => ?_) fun _ hd => by cases hd
  obtain ⟨n, hx, -⟩ := conclude_call (Option.some.inj hd)
  rw [ha, Header.caseExtend] at hx
  split_ifs at hx
  cases hx

/-- A `set` over the binary protocol. -/
theorem passed_binary (he : execute mem size 0 = some (.frame 0 n))
    (hd : dispatch memcacheBinary mem 0 = some (.call c)) (ha : c.args = .store k v flags exptime)
    (hr : BinaryGate.request mem c = some (.set h key data flags exptime))
    (hh : BinaryGate.handler (.memcacheBinary ⟨true, true⟩) systemTime mem c = .done mem') :
    Taken.Passed systemTime ⟨key, data, flags.toNat, exptime, mem, mem', 0, n,
      BinaryGate.asked ⟨true, true⟩ mem mem' k v⟩ := by
  obtain ⟨-, hdr, hheader, -, -, hn⟩ := execute_frame he
  obtain ⟨hdr', hheader', hextra, rfl, rfl⟩ := dispatch_store hd ha
  obtain rfl := Option.some.inj (hheader.symm.trans hheader')
  -- what the handler writes
  have hw : writeBefore mem (hdr.val 0).start
      (envelope ⟨true, true⟩ systemTime flags.toUInt16 exptime []) = some mem' := by
    unfold BinaryGate.handler at hh
    simp only [hr, ha] at hh
    split_ifs at hh
    split at hh
    · cases hh
    · next buf hbuf =>
      cases hh
      exact hbuf
  -- what it was called with
  obtain ⟨hkey, hdata⟩ : BinaryGate.bytes mem (hdr.key 0) = some key ∧
      BinaryGate.bytes mem (hdr.val 0) = some data := by
    unfold BinaryGate.request at hr
    simp only [ha, Option.bind_eq_bind, Option.bind_eq_some_iff] at hr
    obtain ⟨key', hkey, data', hdata, hr⟩ := hr
    cases hr
    exact ⟨hkey, hdata⟩
  have hle : (hdr.val 0).start + (hdr.val 0).len ≤ mem.length ∧
      (mem.drop (hdr.val 0).start).take (hdr.val 0).len = data := by
    unfold BinaryGate.bytes Memproto.read at hdata
    split_ifs at hdata with hle
    exact ⟨hle, Option.some.inj hdata⟩
  have hlen : (UInt32.ofNat (hdr.val 0).len).toNat = (hdr.val 0).len % 2 ^ 32 :=
    UInt32.toNat_ofNat' 
  obtain ⟨hdl, hval⟩ := read_envelope hw hle.1 hle.2 hlen
  refine ⟨⟨flags.toUInt16, UInt32.toNat_toUInt16 _, ?_⟩, fun hshort => ⟨rfl, ?_⟩⟩
  · unfold BinaryGate.asked
    rw [hkey]
    show Option.bind (Memproto.read mem' ((hdr.val 0).start - 6)
      (UInt32.ofNat (hdr.val 0).len + 6).toNat) (fun val => some (key, val)) = _
    rw [hval]
    rfl
  · have hvallen := hdr.toNat_vallen
    have hb := hdr.bodylen.toNat_lt
    have hk := hdr.keylen.toNat_lt
    have hx := hdr.extralen.toNat_lt
    have hstart : (hdr.val 0).start ≤ n := by
      have hlen' : (hdr.val 0).len = hdr.vallen.toNat := rfl
      have hshort' : data.length < 2 ^ 16 := hshort
      rw [hn]
      show 0 + headerSize + hdr.extralen.toNat + hdr.keylen.toNat ≤ _
      omega
    exact (Memtext.writeBefore_some hw).2.2.2 n hstart

end Binary

theorem Takes.passed {systemTime : UInt32} {x : Taken} (h : Takes systemTime x) :
    x.Passed systemTime := by
  cases h with
  | text hrun hr hb hlen hp hs hexec hn hk hcs hlf hkey hfeed =>
    have hin := (((TextConn.run_inBuffer hrun hr).reserved hb hlen).filled hp.2)
    rw [← hs] at hin
    exact passed_text (hin.exec hexec).1 hk hcs hlf hkey hfeed
  | binary he hd ha hr hh => exact passed_binary he hd ha hr hh

/-- What is set over either gate comes back over both, and nothing else in the buffer is touched,
for just the flags of 16 bits, the data of less than 64 KiB and the times that are over within 32
bits. -/
theorem round_trips_iff {systemTime : UInt32} {x : Taken} (h : Takes systemTime x) :
    x.RoundTrips systemTime ↔ x.flags < 2 ^ 16 ∧ x.data.length < 2 ^ 16 ∧
      expiry systemTime x.exptime ≤ 2 ^ 32 :=
  h.passed.roundTrips_iff

/-! Two commands. -/

/-- What is read over the text protocol is taken when its last byte comes. -/
theorem exists_takes {st : Bytes} {r r' : Memtext.Reading} {k : Memtext.Kind}
    (hr : Memtext.Reading.init.feedAll st = .ok r) (hlen : st.length < 2 ^ 32)
    (hk : k = .storage ∨ k = .cas) (hcs : r.cs = .dataCr k) (hfeed : r.feed Memtext.lf = .ok r') :
    ∃ x, Takes 0 x ∧ x.key = r.key ∧
      x.flags = (Memtext.value (r.numbers .flags)).toNat ∧ x.exptime = r.exptime := by
  obtain ⟨as, s, hrun, -, hs, hstatus, hmem⟩ := TextConn.exists_run (o := ⟨true, true⟩) st
    TextConn.follows_init rfl TextConn.mem_init (by show 0 + _ ≤ _; omega)
    (fun r _ => ⟨0, le_rfl, TextConn.near_of_le (by omega)⟩) hr
  obtain ⟨r0, hr0, -, hreads⟩ := hs.running hstatus
  obtain rfl : r = r0 := by
    rw [List.nil_append, hr] at hr0
    exact Memtext.Outcome.ok.inj hr0
  have hoff := hreads.off_le
  rw [List.nil_append] at hoff
  obtain ⟨b, hb, hw, hd, hm, hposs⟩ := hreads.room hmem (by omega)
  have hle : b.mem.length ≤ addressSpace := hm.trans (by decide)
  have hposs := hposs Memtext.lf
  have hunread := (hreads.reserved hw hd hle).filled hposs.2
  obtain ⟨s', hs'⟩ : ∃ s', s' = ({ s with buffer := b } : TextConn).filled [Memtext.lf] :=
    ⟨_, rfl⟩
  rw [← hs'] at hunread
  have hsim := hunread.sim
  have hlf : s'.parsing.buf[s'.off]? = some Memtext.lf :=
    (Memtext.take_drop_cons hunread.take_drop).1
  have hmode : r.cs.mode = .done := by
    rw [hcs]
    rfl
  have hagrees := hsim.agrees
  rw [hmode] at hagrees
  have hmatch := hsim.feed (g := ⟨⟨true, true⟩, 0⟩) hlf fun _ => by
    rw [show s'.off = s.off by rw [hs']; rfl]
    omega
  rw [hfeed] at hmatch
  rcases hx : s'.parsing.feed s'.off ⟨⟨true, true⟩, 0⟩ with m' | m' | m' | m' <;> rw [hx] at hmatch
  · have hexec : s'.parsing.exec ⟨⟨true, true⟩, 0⟩ 0 s'.off = .ok s'.parsing := rfl
    refine ⟨_, .text hrun hstatus hb hle hposs hs' hexec ?_ hk (hsim.cs.trans hcs) hlf
      hagrees.1.keyed.keyBytes hx, rfl, hsim.numbers .flags fun n => ?_,
      Memtext.exptime_eq (hsim.numbers .exptime fun n => ?_)⟩
    · rw [hunread.size]
      exact Nat.lt_succ_self _
    · rw [hmode]
      exact Memtext.Mode.noConfusion
    · rw [hmode]
      exact Memtext.Mode.noConfusion
  all_goals exact hmatch.elim

/-- A frame of a `set`, with flags of 5 and as many times `2 ^ 16`. -/
def setFrame (b : UInt8) : Bytes :=
  [0x80, 0x01, 0, 1, 8, 0, 0, 0, 0, 0, 0, 10, 0, 0, 0, 0, 0, 0, 0, 0, 0, 0, 0, 0] ++
    [0, b, 0, 5, 0, 0, 0, 0, 0x6b, 0x76]

theorem takes_setFrame {b : UInt8} (hb : b = 0 ∨ b = 1) : ∃ x, Takes 0 x ∧ x.data = [0x76] ∧
    x.flags = b.toNat * 2 ^ 16 + 5 ∧ x.exptime = 0 := by
  rcases hb with rfl | rfl
  · refine ⟨_, .binary (show Memproto.execute (setFrame 0) 34 0 = some (.frame 0 34) by decide)
      (show Memproto.dispatch Memproto.memcacheBinary (setFrame 0) 0 = some (.call
        ⟨1, ⟨0x80, 1, 1, 8, 0, 0, 10, 0, 0⟩, ⟨24, 8⟩, .store ⟨32, 1⟩ ⟨33, 1⟩ 5 0⟩) by decide)
      rfl rfl rfl, rfl, rfl, rfl⟩
  · refine ⟨_, .binary (show Memproto.execute (setFrame 1) 34 0 = some (.frame 0 34) by decide)
      (show Memproto.dispatch Memproto.memcacheBinary (setFrame 1) 0 = some (.call
        ⟨1, ⟨0x80, 1, 1, 8, 0, 0, 10, 0, 0⟩, ⟨24, 8⟩, .store ⟨32, 1⟩ ⟨33, 1⟩ 65541 0⟩) by decide)
      rfl rfl rfl, rfl, rfl, rfl⟩

/-- A `set` of one byte comes back, whichever gate it goes over. -/
theorem round_trips_iff_set :
    (∃ x, Takes 0 x ∧ x.key = [107] ∧ (x.RoundTrips 0 ↔ x.flags < 2 ^ 16 ∧
      x.data.length < 2 ^ 16 ∧ expiry 0 x.exptime ≤ 2 ^ 32)) ∧
    ∃ x, Takes 0 x ∧ x.data = [0x76] ∧ x.RoundTrips 0 := by
  constructor
  · obtain ⟨r, hr, hcs, hkey, r', hr'⟩ : ∃ r, Memtext.Reading.init.feedAll
        (Text.text "set k 5 0 1\r\nv\r") = .ok r ∧ r.cs = .dataCr .storage ∧ r.key = [107] ∧
          ∃ r', r.feed Memtext.lf = .ok r' := ⟨_, rfl, rfl, rfl, _, rfl⟩
    obtain ⟨x, hx, hxkey, -⟩ := exists_takes hr (by decide) (.inl rfl) hcs hr'
    exact ⟨x, hx, hxkey.trans hkey, round_trips_iff hx⟩
  · obtain ⟨x, hx, hdata, hflags, hexp⟩ := takes_setFrame (.inl rfl)
    refine ⟨x, hx, hdata, (round_trips_iff hx).2 ⟨?_, ?_, ?_⟩⟩
    · rw [hflags]
      decide
    · rw [hdata]
      decide
    · rw [hexp]
      decide

/-- The flags of a frame have 32 bits, of which 16 come back. -/
theorem not_round_trips : ¬ ∀ (systemTime : UInt32) (x : Taken), Takes systemTime x →
    x.RoundTrips systemTime := by
  intro hall
  obtain ⟨x, hx, -, hflags, -⟩ := takes_setFrame (.inr rfl)
  obtain ⟨val, -, hreturns, -⟩ := hall 0 x hx
  obtain ⟨⟨f, hf, -⟩, -⟩ := hreturns 0 (.inr (Nat.zero_le _))
  have hlt := f.toNat_lt
  rw [hf, hflags] at hlt
  exact absurd hlt (by decide)

end Kumofs.Gate
