import Kumofs.Gate.Memproto

/-!
# The regions of a binary frame

The length of the value is a difference of unsigned numbers. A request that has no value is only
taken where it is 0, so its extras and its key make up the body. One that has a value is taken
whatever it is: where extras and key are longer than the body, the value is not in the frame.
-/

namespace Kumofs.Gate.Memproto

variable {data : Bytes} {p off : ℕ} {h : Header} {callback : ℕ → Bool}

theorem sizeSub_eq {a b : ℕ} (hb : b ≤ a) (ha : a < 2 ^ 64) : sizeSub a b = a - b := by
  unfold sizeSub
  omega

/-! ## Reading -/

theorem read_eq_none {w : ℕ} : read data p w = none ↔ data.length < p + w := by
  unfold read
  split_ifs with hle
  · simp [hle]
  · simp [Nat.lt_of_not_le hle]

theorem readBe32_eq_none : readBe32 data p = none ↔ data.length < p + 4 := by
  rw [readBe32, Option.map_eq_none_iff, read_eq_none]

theorem readBe64_eq_none : readBe64 data p = none ↔ data.length < p + 8 := by
  rw [readBe64, Option.map_eq_none_iff, read_eq_none]

/-- A frame that is accepted is in the buffer. -/
theorem execute_frame {datalen off' : ℕ} (he : execute data datalen off = some (.frame p off')) :
    p = off ∧ ∃ h, header data p = some h ∧
      headerSize + h.bodylen.toNat ≤ sizeSub datalen off ∧ h.magic = request ∧
      off' = off + headerSize + h.bodylen.toNat := by
  unfold execute at he
  simp only [] at he
  split_ifs at he with hlen
  · cases he
  · simp only [Option.bind_eq_bind, Option.bind_eq_some_iff] at he
    obtain ⟨h, hh, he⟩ := he
    split_ifs at he with hbody hmagic
    · cases he
    · cases he
    · cases he
      exact ⟨rfl, h, hh, by omega, not_not.1 hmagic, rfl⟩

/-! ## Lengths -/

namespace Header

theorem toNat_vallen (h : Header) : h.vallen.toNat =
    (h.bodylen.toNat + 2 ^ 32 + 2 ^ 32 - h.extralen.toNat - h.keylen.toNat) % 2 ^ 32 := by
  have hk := h.keylen.toNat_lt
  have he := h.extralen.toNat_lt
  rw [vallen, UInt32.toNat_sub, UInt32.toNat_sub, UInt8.toNat_toUInt32, UInt16.toNat_toUInt32]
  omega

/-- Extras and key are longer than the body. -/
def Overruns (h : Header) : Prop := h.bodylen.toNat < h.extralen.toNat + h.keylen.toNat

theorem body_of_vallen (hv : h.vallen = 0) :
    h.bodylen.toNat = h.extralen.toNat + h.keylen.toNat := by
  have hb := h.bodylen.toNat_lt
  have hk := h.keylen.toNat_lt
  have he := h.extralen.toNat_lt
  have h0 := h.toNat_vallen
  rw [hv, UInt32.toNat_zero] at h0
  omega

theorem not_overruns_of_vallen (hv : h.vallen = 0) : ¬ h.Overruns := by
  have := body_of_vallen hv
  unfold Overruns
  omega

theorem body_of_not_overruns (hn : ¬ h.Overruns) :
    h.bodylen.toNat = h.extralen.toNat + h.keylen.toNat + h.vallen.toNat := by
  have hb := h.bodylen.toNat_lt
  have h0 := h.toNat_vallen
  unfold Overruns at hn
  omega

end Header

/-! ## What is called -/

def Args.regions : Args → List Region
  | .key k => [k]
  | .keyExpiration k _ => [k]
  | .expiration _ => []
  | .store k v _ _ => [k, v]
  | .count k _ _ _ => [k]
  | .plain => []
  | .extend k v => [k, v]

/-- Everything of the buffer that a callback is called with. -/
def Call.regions (c : Call) : List Region := c.extra :: c.args.regions

namespace Header

/-- What a case calls with: all the extras, and no other regions than the key and the value. -/
structure Admits (h : Header) (p : ℕ) (r : ℕ × Args) : Prop where
  extra : r.1 = h.extralen.toNat
  regions : r.2.regions ⊆ [h.key p, h.val p]

variable {r : ℕ × Args}

theorem caseGet_some (hr : h.caseGet p = some r) : h.Admits p r ∧ h.vallen = 0 := by
  unfold caseGet at hr
  split_ifs at hr with he hv hk
  obtain rfl := Option.some.inj hr
  exact ⟨⟨by simp [not_not.1 he], by simp [Args.regions]⟩, not_not.1 hv⟩

theorem casePlain_some (hr : h.casePlain = some r) : h.Admits p r ∧ h.vallen = 0 := by
  unfold casePlain at hr
  split_ifs at hr with hk he hv
  obtain rfl := Option.some.inj hr
  exact ⟨⟨by simp [not_not.1 he], by simp [Args.regions]⟩, not_not.1 hv⟩

theorem caseExtend_some (hr : h.caseExtend p = some r) :
    h.Admits p r ∧ h.extralen = 0 ∧ h.keylen ≠ 0 := by
  unfold caseExtend at hr
  split_ifs at hr with hk he
  obtain rfl := Option.some.inj hr
  exact ⟨⟨by simp [not_not.1 he], by simp [Args.regions]⟩, not_not.1 he, hk⟩

theorem caseDelete_some (hr : h.caseDelete p data = some (some r)) :
    h.Admits p r ∧ h.vallen = 0 := by
  unfold caseDelete at hr
  split_ifs at hr with hk hv he he4
  · cases hr
  · cases hr
  · cases hr
    exact ⟨⟨by simp [he], by simp [Args.regions]⟩, not_not.1 hv⟩
  · obtain ⟨e, -, he'⟩ := Option.map_eq_some_iff.1 hr
    cases he'
    exact ⟨⟨by simp [he4], by simp [Args.regions]⟩, not_not.1 hv⟩
  · cases hr

theorem caseFlush_some (hr : h.caseFlush p data = some (some r)) :
    h.Admits p r ∧ h.vallen = 0 := by
  unfold caseFlush at hr
  split_ifs at hr with hk hv he he4
  · cases hr
  · cases hr
  · cases hr
    exact ⟨⟨by simp [he], by simp [Args.regions]⟩, not_not.1 hv⟩
  · obtain ⟨e, -, he'⟩ := Option.map_eq_some_iff.1 hr
    cases he'
    exact ⟨⟨by simp [he4], by simp [Args.regions]⟩, not_not.1 hv⟩
  · cases hr

theorem caseStore_some (hr : h.caseStore p data = some (some r)) :
    h.Admits p r ∧ h.extralen = 8 ∧ h.keylen ≠ 0 := by
  unfold caseStore at hr
  split_ifs at hr with hk he
  · cases hr
  · cases hr
  · simp only [Option.bind_eq_bind, Option.bind_eq_some_iff] at hr
    obtain ⟨flags, -, expiration, -, he'⟩ := hr
    cases he'
    exact ⟨⟨by simp [not_not.1 he], by simp [Args.regions]⟩, not_not.1 he, hk⟩

theorem caseCount_some (hr : h.caseCount p data = some (some r)) :
    h.Admits p r ∧ h.vallen = 0 := by
  unfold caseCount at hr
  split_ifs at hr with he hk hv
  · cases hr
  · cases hr
  · cases hr
  · simp only [Option.bind_eq_bind, Option.bind_eq_some_iff] at hr
    obtain ⟨amount, -, initial, -, expiration, -, he'⟩ := hr
    cases he'
    exact ⟨⟨by simp [not_not.1 he], by simp [Args.regions]⟩, not_not.1 hv⟩

/-! The extras that are read are in the body. -/

variable (hbody : p + headerSize + h.bodylen.toNat ≤ data.length)

include hbody

theorem caseDelete_ne_none : h.caseDelete p data ≠ none := by
  unfold caseDelete
  split_ifs with hk hv he he4
  · simp
  · simp
  · simp
  · have := body_of_vallen (not_not.1 hv)
    have h4 : h.extralen.toNat = 4 := by rw [he4]; rfl
    rw [Ne, Option.map_eq_none_iff, readBe32_eq_none]
    omega
  · simp

theorem caseFlush_ne_none : h.caseFlush p data ≠ none := by
  unfold caseFlush
  split_ifs with hk hv he he4
  · simp
  · simp
  · simp
  · have := body_of_vallen (not_not.1 hv)
    have h4 : h.extralen.toNat = 4 := by rw [he4]; rfl
    rw [Ne, Option.map_eq_none_iff, readBe32_eq_none]
    omega
  · simp

theorem caseStore_ne_none (hn : h.extralen = 8 → h.keylen ≠ 0 → ¬ h.Overruns) :
    h.caseStore p data ≠ none := by
  unfold caseStore
  split_ifs with hk he
  · simp
  · simp
  · have := body_of_not_overruns (hn (not_not.1 he) hk)
    have h8 : h.extralen.toNat = 8 := by rw [not_not.1 he]; rfl
    obtain ⟨flags, hf⟩ := Option.ne_none_iff_exists'.1
      (mt readBe32_eq_none.1 (show ¬ data.length < p + headerSize + 4 by omega))
    obtain ⟨expiration, he⟩ := Option.ne_none_iff_exists'.1
      (mt readBe32_eq_none.1 (show ¬ data.length < p + headerSize + 4 + 4 by omega))
    simp [hf, he]

theorem caseCount_ne_none : h.caseCount p data ≠ none := by
  unfold caseCount
  split_ifs with he hk hv
  · simp
  · simp
  · simp
  · have := body_of_vallen (not_not.1 hv)
    have h20 : h.extralen.toNat = 20 := by rw [not_not.1 he]; rfl
    obtain ⟨amount, ha⟩ := Option.ne_none_iff_exists'.1
      (mt readBe64_eq_none.1 (show ¬ data.length < p + headerSize + 8 by omega))
    obtain ⟨initial, hi⟩ := Option.ne_none_iff_exists'.1
      (mt readBe64_eq_none.1 (show ¬ data.length < p + headerSize + 8 + 8 by omega))
    obtain ⟨expiration, he⟩ := Option.ne_none_iff_exists'.1
      (mt read_eq_none.1 (show ¬ data.length < p + headerSize + 16 + 4 by omega))
    simp [ha, hi, he]

end Header

/-! ## The frame -/

/-- The region is in the frame at `p`, which is its header and its body. -/
def Header.Holds (h : Header) (p : ℕ) (r : Region) : Prop :=
  p ≤ r.start ∧ r.start + r.len ≤ p + headerSize + h.bodylen.toNat

/-- What is asked of a dispatch: it rejects the frame, or calls the callback of its opcode with
regions of the frame. -/
def Safe (h : Header) (p : ℕ) : Option Dispatched → Prop
  | none => False
  | some (.reject ret) => ret ≤ 0
  | some (.call c) => c.slot = h.opcode.toNat ∧ c.slot < 16 ∧ ∀ r ∈ c.regions, h.Holds p r

theorem Header.Admits.holds {r : ℕ × Args} (hr : h.Admits p r) (hn : ¬ h.Overruns) :
    ∀ x ∈ Call.regions ⟨h.opcode.toNat, h, ⟨p + headerSize, r.1⟩, r.2⟩, h.Holds p x := by
  have hbody := Header.body_of_not_overruns hn
  intro x hx
  unfold Header.Holds
  rcases List.mem_cons.1 hx with rfl | hx
  · simp only [hr.extra]
    omega
  · have hx := hr.regions hx
    simp only [List.mem_cons, List.not_mem_nil, or_false] at hx
    rcases hx with rfl | rfl
    · simp only [Header.key]
      omega
    · simp only [Header.val]
      omega

theorem safe_conclude {x : Option (Option (ℕ × Args))} (hs : h.opcode.toNat < 16) (hx : x ≠ none)
    (hr : ∀ r, x = some (some r) → h.Admits p r ∧ ¬ h.Overruns) :
    Safe h p (x.map (h.conclude p)) := by
  rcases x with _ | _ | r
  · exact absurd rfl hx
  · exact show invalidArgument ≤ 0 by decide
  · obtain ⟨ha, hn⟩ := hr r rfl
    exact ⟨rfl, hs, ha.holds hn⟩

/-- The requests that have a value and are taken: set, add and replace with their extras, append
and prepend without, and a key. -/
def Header.Stores (h : Header) : Prop :=
  ((h.opcode.toNat = 0x01 ∨ h.opcode.toNat = 0x02 ∨ h.opcode.toNat = 0x03) ∧ h.extralen = 8 ∨
    (h.opcode.toNat = 0x0e ∨ h.opcode.toNat = 0x0f) ∧ h.extralen = 0) ∧ h.keylen ≠ 0

theorem dispatch_safe (hh : header data p = some h)
    (hbody : p + headerSize + h.bodylen.toNat ≤ data.length)
    (hn : callback h.opcode.toNat = true → h.Stores → ¬ h.Overruns) :
    Safe h p (dispatch callback data p) := by
  have hreject : Safe h p (some (.reject (-h.opcode.toNat))) :=
    show (-h.opcode.toNat : ℤ) ≤ 0 by omega
  unfold dispatch
  rw [hh, Option.bind_eq_bind, Option.bind_some]
  simp only []
  split_ifs with hcb hget hdelete hflush hstore hcount hplain hextend
  · exact hreject
  · refine safe_conclude (x := some (h.caseGet p)) (by omega) (by simp) fun r hr => ?_
    obtain ⟨ha, hv⟩ := Header.caseGet_some (Option.some.inj hr)
    exact ⟨ha, Header.not_overruns_of_vallen hv⟩
  · refine safe_conclude (by omega) (Header.caseDelete_ne_none hbody) fun r hr => ?_
    obtain ⟨ha, hv⟩ := Header.caseDelete_some hr
    exact ⟨ha, Header.not_overruns_of_vallen hv⟩
  · refine safe_conclude (by omega) (Header.caseFlush_ne_none hbody) fun r hr => ?_
    obtain ⟨ha, hv⟩ := Header.caseFlush_some hr
    exact ⟨ha, Header.not_overruns_of_vallen hv⟩
  · have hst : h.extralen = 8 → h.keylen ≠ 0 → ¬ h.Overruns := fun he hk =>
      hn (by simpa using hcb) ⟨.inl ⟨hstore, he⟩, hk⟩
    refine safe_conclude (by omega) (Header.caseStore_ne_none hbody hst) fun r hr => ?_
    obtain ⟨ha, he, hk⟩ := Header.caseStore_some hr
    exact ⟨ha, hst he hk⟩
  · refine safe_conclude (by omega) (Header.caseCount_ne_none hbody) fun r hr => ?_
    obtain ⟨ha, hv⟩ := Header.caseCount_some hr
    exact ⟨ha, Header.not_overruns_of_vallen hv⟩
  · refine safe_conclude (x := some h.casePlain) (by omega) (by simp) fun r hr => ?_
    obtain ⟨ha, hv⟩ := Header.casePlain_some (Option.some.inj hr)
    exact ⟨ha, Header.not_overruns_of_vallen hv⟩
  · refine safe_conclude (x := some (h.caseExtend p)) (by omega) (by simp) fun r hr => ?_
    obtain ⟨ha, he, hk⟩ := Header.caseExtend_some (Option.some.inj hr)
    exact ⟨ha, hn (by simpa using hcb) ⟨.inr ⟨hextend, he⟩, hk⟩⟩
  · exact hreject

/-- The value of a request that overruns its body starts behind it. -/
theorem not_safe_conclude {r : ℕ × Args} (hn : h.Overruns) (hv : h.val p ∈ r.2.regions) :
    ¬ Safe h p (some (h.conclude p (some r))) := by
  rintro ⟨-, -, hr⟩
  have hval : p + headerSize + h.extralen.toNat + h.keylen.toNat + h.vallen.toNat ≤
      p + headerSize + h.bodylen.toNat := (hr (h.val p) (List.mem_cons_of_mem _ hv)).2
  unfold Header.Overruns at hn
  omega

theorem not_dispatch_safe (hh : header data p = some h) (hcb : callback h.opcode.toNat = true)
    (hs : h.Stores) (hn : h.Overruns) : ¬ Safe h p (dispatch callback data p) := by
  obtain ⟨⟨hop, he⟩ | ⟨hop, he⟩, hk⟩ := hs
  · have hd : dispatch callback data p = (h.caseStore p data).map (h.conclude p) := by
      unfold dispatch
      rw [hh, Option.bind_eq_bind, Option.bind_some]
      simp only []
      rw [hcb, if_neg (by decide), if_neg (by omega), if_neg (by omega), if_neg (by omega),
        if_pos hop]
    rw [hd, Header.caseStore, if_neg hk, if_neg (not_not.2 he)]
    cases readBe32 data (p + headerSize) with
    | none => exact id
    | some flags =>
      cases readBe32 data (p + headerSize + 4) with
      | none => exact id
      | some expiration => exact not_safe_conclude hn (by simp [Args.regions])
  · have hd : dispatch callback data p = some (h.conclude p (h.caseExtend p)) := by
      unfold dispatch
      rw [hh, Option.bind_eq_bind, Option.bind_some]
      simp only []
      rw [hcb, if_neg (by decide), if_neg (by omega), if_neg (by omega), if_neg (by omega),
        if_neg (by omega), if_neg (by omega), if_neg (by omega), if_pos hop]
    rw [hd, Header.caseExtend, if_neg hk, if_neg (not_not.2 he)]
    exact not_safe_conclude hn (by simp [Args.regions])

theorem header_le (hh : header data p = some h) : p + headerSize ≤ data.length := by
  by_contra hlt
  rw [header, read_eq_none.2 (by omega)] at hh
  cases hh

/-- The regions of a frame that is accepted are in it but for those of a request that stores and
whose extras and key are longer than its body. -/
theorem frame_safe_iff {off' : ℕ} (he : execute data data.length off = some (.frame p off')) :
    ∃ h, header data p = some h ∧ (Safe h p (dispatch callback data p) ↔
      ¬ (callback h.opcode.toNat = true ∧ h.Stores ∧ h.Overruns)) := by
  obtain ⟨rfl, h, hh, hle, -, -⟩ := execute_frame he
  have hin := header_le hh
  have hsub : sizeSub data.length p ≤ data.length - p := by
    unfold sizeSub
    omega
  refine ⟨h, hh, fun hs hbad => not_dispatch_safe hh hbad.1 hbad.2.1 hbad.2.2 hs, fun hn => ?_⟩
  exact dispatch_safe hh (by omega) fun hcb hst hov => hn ⟨hcb, hst, hov⟩

/-- A frame of a header alone, and nine bytes that follow it. -/
def setOfNoBody : Bytes :=
  [0x80, 0x01, 0, 1, 8, 0, 0, 0, 0, 0, 0, 0, 0, 0, 0, 0, 0, 0, 0, 0, 0, 0, 0, 0] ++
    [0, 0, 0, 0, 0, 0, 0, 0, 0x6b]

theorem frame_safe_setOfNoBody : ∃ h, header setOfNoBody 0 = some h ∧
    (Safe h 0 (dispatch cloudy setOfNoBody 0) ↔
      ¬ (cloudy h.opcode.toNat = true ∧ h.Stores ∧ h.Overruns)) :=
  frame_safe_iff (show execute setOfNoBody setOfNoBody.length 0 = some (.frame 0 24) by decide)

/-- The extras, the key and a value of almost 4 GiB are taken from what follows the frame. -/
theorem setOfNoBody_not_safe : ¬ ∀ (callback : ℕ → Bool) (data : Bytes) (off p off' : ℕ),
    execute data data.length off = some (.frame p off') →
      ∃ h, header data p = some h ∧ Safe h p (dispatch callback data p) := by
  intro hall
  obtain ⟨h, hh, hs⟩ := hall cloudy setOfNoBody 0 0 24 (by decide)
  have h0 : header setOfNoBody 0 = some ⟨0x80, 1, 1, 8, 0, 0, 0, 0, 0⟩ := by decide
  obtain rfl := Option.some.inj (hh.symm.trans h0)
  have hd : dispatch cloudy setOfNoBody 0 = some (.call
      ⟨1, ⟨0x80, 1, 1, 8, 0, 0, 0, 0, 0⟩, ⟨24, 8⟩, .store ⟨32, 1⟩ ⟨33, 4294967287⟩ 0 0⟩) := by
    decide
  rw [hd] at hs
  exact absurd (hs.2.2 ⟨24, 8⟩ List.mem_cons_self).2 (by decide)

section Append

variable {r s : Bytes}

/-! ## What follows a frame is not read -/

theorem read_append {w : ℕ} {x : Bytes} (h : read data p w = some x) :
    read (data ++ r) p w = some x := by
  unfold read at h ⊢
  split_ifs at h with hle
  simp only [Option.some.injEq] at h
  rw [if_pos (by rw [List.length_append]; omega), List.drop_append_of_le_length (by omega),
    List.take_append_of_le_length (by rw [List.length_drop]; omega), h]

theorem readBe32_append {x : UInt32} (h : readBe32 data p = some x) :
    readBe32 (data ++ r) p = some x := by
  obtain ⟨b, hb, rfl⟩ := Option.map_eq_some_iff.1 h
  rw [readBe32, read_append hb]
  rfl

theorem readBe64_append {x : UInt64} (h : readBe64 data p = some x) :
    readBe64 (data ++ r) p = some x := by
  obtain ⟨b, hb, rfl⟩ := Option.map_eq_some_iff.1 h
  rw [readBe64, read_append hb]
  rfl

theorem header_append (h' : header data p = some h) : header (data ++ r) p = some h := by
  obtain ⟨b, hb, rfl⟩ := Option.map_eq_some_iff.1 h'
  rw [header, read_append hb]
  rfl

namespace Header

variable {x : Option (ℕ × Args)}

theorem caseDelete_append (hx : h.caseDelete p data = some x) :
    h.caseDelete p (data ++ r) = some x := by
  unfold caseDelete at hx ⊢
  split_ifs at hx ⊢
  · exact hx
  · exact hx
  · exact hx
  · obtain ⟨e, he, rfl⟩ := Option.map_eq_some_iff.1 hx
    rw [readBe32_append he]
    rfl
  · exact hx

theorem caseFlush_append (hx : h.caseFlush p data = some x) :
    h.caseFlush p (data ++ r) = some x := by
  unfold caseFlush at hx ⊢
  split_ifs at hx ⊢
  · exact hx
  · exact hx
  · exact hx
  · obtain ⟨e, he, rfl⟩ := Option.map_eq_some_iff.1 hx
    rw [readBe32_append he]
    rfl
  · exact hx

theorem caseStore_append (hx : h.caseStore p data = some x) :
    h.caseStore p (data ++ r) = some x := by
  unfold caseStore at hx ⊢
  split_ifs at hx ⊢
  · exact hx
  · exact hx
  · simp only [Option.bind_eq_bind, Option.bind_eq_some_iff] at hx
    obtain ⟨flags, hf, expiration, he, hx⟩ := hx
    simpa [readBe32_append hf, readBe32_append he] using hx

theorem caseCount_append (hx : h.caseCount p data = some x) :
    h.caseCount p (data ++ r) = some x := by
  unfold caseCount at hx ⊢
  split_ifs at hx ⊢
  · exact hx
  · exact hx
  · exact hx
  · simp only [Option.bind_eq_bind, Option.bind_eq_some_iff, Option.map_eq_some_iff] at hx
    obtain ⟨amount, ha, initial, hi, expiration, ⟨b, hb, hbe⟩, hx⟩ := hx
    simpa [readBe64_append ha, readBe64_append hi, read_append hb, hbe] using hx

end Header

theorem ite_append {α : Type} {c : Prop} [Decidable c] {x x' y y' : Option α} {d : α}
    (hx : x = some d → x' = some d) (hy : y = some d → y' = some d) :
    (if c then x else y) = some d → (if c then x' else y') = some d := by
  by_cases hc : c
  · rw [if_pos hc, if_pos hc]
    exact hx
  · rw [if_neg hc, if_neg hc]
    exact hy

theorem map_append {α β : Type} {f : α → β} {x x' : Option α} {d : β}
    (hx : ∀ a, x = some a → x' = some a) (h : x.map f = some d) : x'.map f = some d := by
  obtain ⟨a, ha, rfl⟩ := Option.map_eq_some_iff.1 h
  rw [hx a ha]
  rfl

theorem dispatch_append {d : Dispatched} (hd : dispatch callback data p = some d) :
    dispatch callback (data ++ r) p = some d := by
  unfold dispatch at hd ⊢
  simp only [Option.bind_eq_bind, Option.bind_eq_some_iff] at hd
  obtain ⟨h, hh, hd⟩ := hd
  rw [header_append hh, Option.bind_eq_bind, Option.bind_some]
  revert hd
  -- the branch is a matter of the header
  refine ite_append id (ite_append id ?_)
  refine ite_append (map_append fun _ => Header.caseDelete_append) ?_
  refine ite_append (map_append fun _ => Header.caseFlush_append) ?_
  refine ite_append (map_append fun _ => Header.caseStore_append) ?_
  exact ite_append (map_append fun _ => Header.caseCount_append) id

/-! ## What a callback is called with -/

/-- The arguments that are not those of a callback of a gate. -/
def Args.Foreign : Args → Prop
  | .count _ _ _ _ => True
  | .extend _ _ => True
  | _ => False

theorem conclude_call {x : Option (ℕ × Args)} {c : Call} (hc : h.conclude p x = .call c) :
    ∃ n, x = some (n, c.args) ∧ c.header = h := by
  rcases x with _ | ⟨n, args⟩
  · cases hc
  · cases hc
    exact ⟨n, rfl, rfl⟩

namespace Header

variable {n : ℕ} {args : Args}

theorem caseGet_native (hx : h.caseGet p = some (n, args)) : ¬ args.Foreign := by
  unfold caseGet at hx
  split_ifs at hx
  cases hx
  exact id

theorem casePlain_native (hx : h.casePlain = some (n, args)) : ¬ args.Foreign := by
  unfold casePlain at hx
  split_ifs at hx
  cases hx
  exact id

theorem caseDelete_native (hx : h.caseDelete p data = some (some (n, args))) :
    ¬ args.Foreign := by
  unfold caseDelete at hx
  split_ifs at hx
  · cases hx
  · cases hx
  · cases hx
    exact id
  · obtain ⟨e, -, he⟩ := Option.map_eq_some_iff.1 hx
    cases he
    exact id
  · cases hx

theorem caseFlush_native (hx : h.caseFlush p data = some (some (n, args))) :
    ¬ args.Foreign := by
  unfold caseFlush at hx
  split_ifs at hx
  · cases hx
  · cases hx
  · cases hx
    exact id
  · obtain ⟨e, -, he⟩ := Option.map_eq_some_iff.1 hx
    cases he
    exact id
  · cases hx

theorem caseStore_native (hx : h.caseStore p data = some (some (n, args))) :
    ¬ args.Foreign := by
  unfold caseStore at hx
  split_ifs at hx
  · cases hx
  · cases hx
  · simp only [Option.bind_eq_bind, Option.bind_eq_some_iff] at hx
    obtain ⟨flags, -, expiration, -, he⟩ := hx
    cases he
    exact id

end Header

theorem ite_elim {α : Type} {c : Prop} [Decidable c] {x y d : α} {P : Prop}
    (hx : c → x = d → P) (hy : ¬ c → y = d → P) : (if c then x else y) = d → P := by
  by_cases hc : c
  · rw [if_pos hc]
    exact hx hc
  · rw [if_neg hc]
    exact hy hc

/-- The key and the value are behind the header, and arguments that no gate takes come from the
opcodes that no gate takes. -/
theorem dispatch_call {c : Call} (hd : dispatch callback data p = some (.call c)) :
    (∀ x ∈ c.args.regions, p + headerSize ≤ x.start) ∧
      (c.args.Foreign → ∃ cmd, callback cmd = true ∧
        (cmd = 0x05 ∨ cmd = 0x06 ∨ cmd = 0x0e ∨ cmd = 0x0f)) := by
  unfold dispatch at hd
  simp only [Option.bind_eq_bind, Option.bind_eq_some_iff] at hd
  obtain ⟨h, -, hd⟩ := hd
  have hregions : ∀ {n}, h.Admits p (n, c.args) →
      ∀ x ∈ c.args.regions, p + headerSize ≤ x.start := fun ha x hx => by
    have hmem := ha.regions hx
    simp only [List.mem_cons, List.not_mem_nil, or_false] at hmem
    rcases hmem with rfl | rfl
    · exact Nat.le_add_right _ _
    · simp only [Header.val]
      omega
  have hcall : ∀ {x : Option (Option (ℕ × Args))}, x.map (h.conclude p) = some (.call c) →
      ∃ n, x = some (some (n, c.args)) := fun hx => by
    obtain ⟨y, rfl, hy⟩ := Option.map_eq_some_iff.1 hx
    obtain ⟨n, rfl, -⟩ := conclude_call hy
    exact ⟨n, rfl⟩
  revert hd
  refine ite_elim (fun _ hd => by cases hd) fun hcb => ?_
  refine ite_elim (fun _ hd => ?_) fun _ => ?_
  · obtain ⟨n, hx, -⟩ := conclude_call (Option.some.inj hd)
    exact ⟨hregions (Header.caseGet_some hx).1, fun hf => absurd hf (Header.caseGet_native hx)⟩
  refine ite_elim (fun _ hd => ?_) fun _ => ?_
  · obtain ⟨n, hx⟩ := hcall hd
    exact ⟨hregions (Header.caseDelete_some hx).1,
      fun hf => absurd hf (Header.caseDelete_native hx)⟩
  refine ite_elim (fun _ hd => ?_) fun _ => ?_
  · obtain ⟨n, hx⟩ := hcall hd
    exact ⟨hregions (Header.caseFlush_some hx).1, fun hf => absurd hf (Header.caseFlush_native hx)⟩
  refine ite_elim (fun _ hd => ?_) fun _ => ?_
  · obtain ⟨n, hx⟩ := hcall hd
    exact ⟨hregions (Header.caseStore_some hx).1, fun hf => absurd hf (Header.caseStore_native hx)⟩
  refine ite_elim (fun hcount hd => ?_) fun _ => ?_
  · obtain ⟨n, hx⟩ := hcall hd
    exact ⟨hregions (Header.caseCount_some hx).1,
      fun _ => ⟨h.opcode.toNat, by simpa using hcb, by omega⟩⟩
  refine ite_elim (fun _ hd => ?_) fun _ => ?_
  · obtain ⟨n, hx, -⟩ := conclude_call (Option.some.inj hd)
    exact ⟨hregions (Header.casePlain_some hx).1, fun hf => absurd hf (Header.casePlain_native hx)⟩
  refine ite_elim (fun hextend hd => ?_) fun _ hd => by cases hd
  obtain ⟨n, hx, -⟩ := conclude_call (Option.some.inj hd)
  exact ⟨hregions (Header.caseExtend_some hx).1,
    fun _ => ⟨h.opcode.toNat, by simpa using hcb, by omega⟩⟩

theorem header_zero (hs : headerSize ≤ s.length) :
    header s 0 = some (Header.parse (s.take headerSize)) := by
  rw [header, read, if_pos (by omega), List.drop_zero]
  rfl

/-- The parser of a buffer looks at its data alone. -/
theorem execute_data (hlen : s.length < 2 ^ 64) : execute (s ++ r) s.length 0 =
    if s.length < headerSize then some .more
    else if s.length < headerSize + (Header.parse (s.take headerSize)).bodylen.toNat then
      some .more
    else if (Header.parse (s.take headerSize)).magic ≠ request then some .error
    else some (.frame 0 (headerSize + (Header.parse (s.take headerSize)).bodylen.toNat)) := by
  have hsub : sizeSub s.length 0 = s.length := sizeSub_eq (Nat.zero_le _) hlen
  unfold execute
  simp only [hsub]
  by_cases h1 : s.length < headerSize
  · rw [if_pos h1, if_pos h1]
  · rw [if_neg h1, if_neg h1, header_append (header_zero (by omega)), Option.bind_eq_bind,
      Option.bind_some]
    by_cases h2 : s.length < headerSize + (Header.parse (s.take headerSize)).bodylen.toNat
    · rw [if_pos h2, if_pos (by omega)]
    · rw [if_neg h2, if_neg (by omega), Nat.zero_add]

end Append

end Kumofs.Gate.Memproto
