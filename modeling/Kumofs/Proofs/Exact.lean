import Kumofs.Proofs.TextConn
import Kumofs.Proofs.Words

/-!
# Numbers that are exact

At the end of a command the callback is given the numbers of its line just where they fit the fields
they go through.
-/

namespace Kumofs.Gate

namespace Memtext

open Text (text)

/-! ## A call -/

section Called

variable {r : Reading} {k : Kind} {h rest command : Bytes}

theorem header_eq (hh : cr ∉ h) (q : Request) : (Call.mk (h ++ cr :: rest) q).header = h := by
  unfold Call.header
  rw [List.takeWhile_append_of_pos fun b hb => ?_, List.takeWhile_cons_of_neg (by simp),
    List.append_nil]
  simpa using fun he : b = cr => hh (he ▸ hb)

theorem body_eq (hh : cr ∉ h) (q : Request) (data : Bytes) :
    (Call.mk (h ++ cr :: lf :: (data ++ [cr, lf])) q).body = data := by
  unfold Call.body
  rw [header_eq hh]
  simp only []
  rw [← List.drop_drop, List.drop_left' rfl]
  show ((data ++ [cr, lf]).dropLast).dropLast = data
  rw [List.dropLast_append_of_ne_nil (by simp)]
  show ((data ++ [cr]).dropLast) = data
  rw [List.dropLast_append_of_ne_nil (by simp)]
  simp

theorem number_eq (he : Ended r k h) (q : Request) {i : ℕ} {f : Field}
    (hi : k.fields[i]? = some f) :
    (Call.mk (h ++ cr :: rest) q).number (i + 2) = decimal (r.numbers f) := by
  unfold Call.number
  rw [header_eq he.no_cr]
  exact he.told i f hi

theorem flags_exact (hd : Digits (r.numbers .flags)) :
    r.flags.toNat = decimal (r.numbers .flags) ↔ decimal (r.numbers .flags) < 2 ^ 16 := by
  unfold Reading.flags
  rw [UInt64.toNat_toUInt16, toNat_value hd]
  omega

theorem exptime_exact (hd : Digits (r.numbers .exptime)) :
    r.exptime.toNat = decimal (r.numbers .exptime) ↔ decimal (r.numbers .exptime) < 2 ^ 32 := by
  unfold Reading.exptime
  rw [UInt64.toNat_toUInt32, toNat_value hd]
  omega

theorem casUnique_exact (hd : Digits (r.numbers .casUnique)) :
    r.casUnique.toNat = decimal (r.numbers .casUnique) ↔
      decimal (r.numbers .casUnique) < 2 ^ 64 := by
  unfold Reading.casUnique
  rw [toNat_value hd]
  omega

/-- The data that is given, against the number of its bytes. -/
theorem data_exact (hd : Digits (r.numbers .bytes))
    (hlen : r.data.length = (value (r.numbers .bytes)).toNat) :
    ((UInt32.ofNat r.data.length).toNat = decimal (r.numbers .bytes) ∧ clip r.data = r.data ∧
      (clip r.data).length = decimal (r.numbers .bytes)) ↔ decimal (r.numbers .bytes) < 2 ^ 32 := by
  rw [toNat_value hd] at hlen
  rw [UInt32.toNat_ofNat']
  constructor
  · rintro ⟨h1, -, -⟩
    omega
  · intro hlt
    have hlen' : r.data.length = decimal (r.numbers .bytes) := by omega
    have hclip : clip r.data = r.data := by
      unfold clip
      exact List.take_of_length_le (by omega)
    rw [hclip]
    exact ⟨by omega, rfl, hlen'⟩

/-- The numbers that the callback of a command is given are those of its line where they fit. -/
theorem exact_iff_fits (he : Ended r k h)
    (hdata : k = .storage ∨ k = .cas → rest = lf :: (r.data ++ [cr, lf]) ∧
      r.data.length = (value (r.numbers .bytes)).toNat) :
    (Call.mk (h ++ cr :: rest) (r.request k)).Exact ↔
      (Call.mk (h ++ cr :: rest) (r.request k)).Fits := by
  cases k with
  | retrieval => exact Iff.rfl
  | numeric => exact Iff.rfl
  | other => exact Iff.rfl
  | delete =>
    show r.exptime.toNat = Call.number _ (0 + 2) ↔ Call.number _ (0 + 2) < 2 ^ 32
    rw [number_eq he _ (f := .exptime) rfl]
    exact exptime_exact (he.digits _ (by decide))
  | storage =>
    obtain ⟨rfl, hlen⟩ := hdata (.inl rfl)
    show (r.flags.toNat = Call.number _ (0 + 2) ∧ r.exptime.toNat = Call.number _ (1 + 2) ∧
      (UInt32.ofNat r.data.length).toNat = Call.number _ (2 + 2) ∧ clip r.data = Call.body _ ∧
        (clip r.data).length = Call.number _ (2 + 2)) ↔
      (Call.number _ (0 + 2) < 2 ^ 16 ∧ Call.number _ (1 + 2) < 2 ^ 32 ∧
        Call.number _ (2 + 2) < 2 ^ 32)
    rw [number_eq he _ (f := .flags) rfl, number_eq he _ (f := .exptime) rfl,
      number_eq he _ (f := .bytes) rfl, body_eq he.no_cr,
      flags_exact (he.digits _ (by decide)), exptime_exact (he.digits _ (by decide)),
      data_exact (he.digits _ (by decide)) hlen]
  | cas =>
    obtain ⟨rfl, hlen⟩ := hdata (.inr rfl)
    show (r.flags.toNat = Call.number _ (0 + 2) ∧ r.exptime.toNat = Call.number _ (1 + 2) ∧
      (UInt32.ofNat r.data.length).toNat = Call.number _ (2 + 2) ∧ clip r.data = Call.body _ ∧
        (clip r.data).length = Call.number _ (2 + 2) ∧
          r.casUnique.toNat = Call.number _ (3 + 2)) ↔
      (Call.number _ (0 + 2) < 2 ^ 16 ∧ Call.number _ (1 + 2) < 2 ^ 32 ∧
        Call.number _ (2 + 2) < 2 ^ 32 ∧ Call.number _ (3 + 2) < 2 ^ 64)
    rw [number_eq he _ (f := .flags) rfl, number_eq he _ (f := .exptime) rfl,
      number_eq he _ (f := .bytes) rfl, number_eq he _ (f := .casUnique) rfl, body_eq he.no_cr,
      flags_exact (he.digits _ (by decide)), exptime_exact (he.digits _ (by decide)),
      casUnique_exact (he.digits _ (by decide)), ← data_exact (he.digits _ (by decide)) hlen]
    simp only [and_assoc]

end Called

/-! ## A byte -/

section Moved

variable {r r' : Reading} {s s' : State} {b : UInt8} {as : List Action} {k : Kind} {f : Field}

/-- What the line says after a byte, and what the callback that is called is given. -/
structure Tells (b : UInt8) (r r' : Reading) : Prop where
  shapes : Shapes (r'.push b) r'.cs
  calls : ∀ c ∈ r'.calls, c ∈ r.calls ∨ (c.Exact ↔ c.Fits)

theorem tells_of_calls (hcs : r'.cs = s') (h : Shapes (r'.push b) s') (hc : r'.calls = r.calls) :
    Tells b r r' :=
  ⟨hcs ▸ h, fun _ hmem => .inl (hc ▸ hmem)⟩

/-- The letters of a command. -/
theorem actAll_cmds (w : Bytes) (r : Reading) :
    ∃ c, r.actAll b (cmds w) = .ok { r with command := c } ∧ ∀ d : Command, d.word = w → c = d := by
  by_cases h : ∃ c : Command, c.word = w
  · obtain ⟨c, rfl⟩ := h
    refine ⟨c, ?_, fun d hd => (word_injective hd).symm⟩
    rw [cmds_word]
    rfl
  · refine ⟨r.command, ?_, fun d hd => absurd ⟨d, hd⟩ h⟩
    rw [cmds_none fun c hc => h ⟨c, hc⟩]
    rfl

theorem actAll_finish (k : Kind) : r.actAll b k.finish = r.call b k := by
  cases k <;> rfl

theorem call_ok (h : r.call b k = .ok r') :
    r' = { r with calls := r.calls ++ [⟨r.line ++ [b], r.request k⟩] } := by
  unfold Reading.call at h
  split_ifs at h
  cases h
  rfl

theorem Line.none {ws : List Bytes} {cur : Bytes} (h : Line r k ws cur) :
    Line r k (ws ++ [].map r.numbers) cur := by
  rwa [List.map_nil, List.append_nil]

theorem before_of_begins (hb : Begins s k f) (hs : Shapes r s) : Before r k f [] := by
  cases hb with
  | next k f => exact hs
  | storage => exact ⟨by decide, hs.1.none, hs.2⟩
  | cas => exact ⟨by decide, hs.1.none, hs.2⟩
  | delete => exact ⟨by decide, hs.1.none, hs.2⟩
  | numeric => exact ⟨by decide, hs.1.none, hs.2⟩

/-- A number that ends. -/
theorem before_of_ends (he : Ends s k f) (hs : Shapes r s) : Before r k f r.text ∧ r.text ≠ [] ∧
    Digits r.text ∧ (f = .bytes → r.text.head? ≠ some 48) := by
  cases he with
  | zero k f =>
    obtain ⟨hb, ht, hf⟩ := hs
    refine ⟨hb, by rw [ht]; simp, ?_, fun h => absurd h hf⟩
    rw [ht]
    exact ⟨by decide +kernel, fun _ => rfl⟩
  | digits k f =>
    obtain ⟨hb, hne, hd, h0⟩ := hs
    exact ⟨hb, hne, ⟨hd, fun h => absurd h h0⟩, fun _ => h0⟩

theorem behind_of_pads (hp : Pads s k) (hs : Shapes r s) (hline : r'.line = r.line ++ [space])
    (hcmd : r'.command = r.command) (hkeys : r'.keys = r.keys) (hnum : r'.numbers = r.numbers) :
    Behind r' k := by
  cases hp with
  | retrieval =>
    obtain ⟨hl, hn⟩ := hs
    refine Line.behind ?_ (hn.congr hkeys hnum)
    rw [hkeys]
    exact (hl.spaces hcmd hline).none
  | tail _ => exact hs.push (by decide) hcmd hline hkeys hnum
  | pad _ => exact hs.push (by decide) hcmd hline hkeys hnum

/-- The words of a line that may end. -/
theorem ended_of_pads (hp : Pads s k) (hs : Shapes r s) (hcmd : r'.command = r.command)
    (hnum : r'.numbers = r.numbers) : Ended r' k r.line := by
  cases hp with
  | retrieval =>
    obtain ⟨hl, hn⟩ := hs
    exact (Line.behind hl.none hn).ended hcmd hnum
  | tail _ => exact hs.ended hcmd hnum
  | pad _ => exact hs.ended hcmd hnum

/-- The numbers up to `f` where `f` is the last one, or one follows. -/
theorem fields_follow (h : f ∈ k.fields) :
    (k.follow f = .tail k ∧ k.fields = k.before f ++ [f]) ∨
      ∃ f', k.follow f = .beforeNumber k f' ∧ f' ∈ k.fields ∧ k.before f' = k.before f ++ [f] := by
  revert h
  cases k <;> cases f <;> simp [Kind.fields, Kind.follow, Kind.before]

theorem fields_ends (h : k.ends f) : k.fields = k.before f ++ [f] := by
  revert h
  cases k <;> cases f <;> decide

/-- A number is put behind those before it. -/
theorem Named.number (hn : Named r k (k.before f)) (hd : Digits r.text)
    (hb : f = .bytes → value r.text ≠ 0) :
    (k.before f ++ [f]).map (Function.update r.numbers f r.text) =
        (k.before f).map r.numbers ++ [r.text] ∧
      ∀ r' : Reading, r'.keys = r.keys → r'.numbers = Function.update r.numbers f r.text →
        Named r' k (k.before f ++ [f]) := by
  have hne : ∀ g ∈ k.before f, g ≠ f := fun g hg he => Kind.not_mem_before (he ▸ hg)
  refine ⟨?_, fun r' hkeys hnum => ⟨?_, ?_, ?_, ?_⟩⟩
  · rw [List.map_append, List.map_singleton, Function.update_self]
    congr 1
    exact List.map_congr_left fun g hg => Function.update_of_ne (hne g hg) _ _
  · rw [hkeys]
    exact hn.one
  · intro g hg
    rw [hnum]
    rcases List.mem_append.1 hg with hg | hg
    · rw [Function.update_of_ne (hne g hg)]
      exact hn.digits g hg
    · rw [List.mem_singleton.1 hg, Function.update_self]
      exact hd
  · intro hg
    rw [hnum]
    rcases List.mem_append.1 hg with hg | hg
    · rw [Function.update_of_ne (hne _ hg)]
      exact hn.bytes hg
    · rw [← List.mem_singleton.1 hg, Function.update_self]
      exact hb (List.mem_singleton.1 hg).symm
  · intro hg
    rw [List.mem_append, not_or, List.mem_singleton] at hg
    rw [hnum, Function.update_of_ne hg.2]
    exact hn.fresh hg.1

theorem isKeyByte_ne (h : isKeyByte b) : b ≠ space ∧ b ≠ cr := by
  simp only [isKeyByte, Bool.and_eq_true, decide_eq_true_eq, ne_eq] at h
  exact ⟨h.1.1.2, h.1.1.1⟩

theorem push_line (r : Reading) (b : UInt8) : (r.push b).line = r.line ++ [b] := rfl

/-- The first byte of a command, or a further one. -/
theorem tells_letters {w : Bytes} (hsplit : split (r.line ++ [b]) = ([], w))
    (hcr : cr ∉ r.line ++ [b]) (hkeys : r.keys = []) (hexp : r.numbers .exptime = [])
    (hcs : r.cs = .word w) (hr : r.actAll b (cmds w) = .ok r') : Tells b r r' := by
  obtain ⟨c, hact, hc⟩ := actAll_cmds (b := b) w r
  rw [hact] at hr
  cases hr
  exact tells_of_calls hcs ⟨hsplit, hcr, hkeys, hexp, hc⟩ rfl

/-- The end of a number, as the state before it has it. -/
theorem actAll_number (hr : r.actAll b [.number f] = .ok r') : accepts f r.text ∧
    r' = { r with numbers := Function.update r.numbers f r.text } := by
  change (if accepts f r.text then _ else _) = _ at hr
  split_ifs at hr with ha
  cases hr
  exact ⟨ha, rfl⟩

theorem tells_numberSpace (he : Ends s k f) (hs : Shapes r s) (hcs : r.cs = k.follow f)
    (hr : r.actAll space [.number f] = .ok r') : Tells space r r' := by
  obtain ⟨hb, hne, hd, h0⟩ := before_of_ends he hs
  obtain ⟨ha, rfl⟩ := actAll_number hr
  have hvalue : f = .bytes → value r.text ≠ 0 := fun hf => value_ne_zero (hf ▸ ha) (h0 hf)
  obtain ⟨hmap, hnamed⟩ := hb.named.number hd hvalue
  have hline : Line (Reading.push { r with numbers := Function.update r.numbers f r.text } space) _
    _ _ := hb.line.space hne rfl rfl
  rw [List.append_assoc, ← hmap] at hline
  rcases fields_follow hb.mem with ⟨hf, hfields⟩ | ⟨f', hf, hmem, hbefore⟩ <;> rw [hf] at hcs
  · rw [← hfields] at hline hnamed
    exact tells_of_calls hcs (hline.behind (hnamed _ rfl rfl)) rfl
  · rw [← hbefore] at hline hnamed
    exact tells_of_calls hcs ⟨hmem, hline, hnamed _ rfl rfl⟩ rfl

theorem tells_numberEnd (he : Ends s k f) (hs : Shapes r s) (hk : k.ends f) (hcs : r.cs = .cr k)
    (hr : r.actAll cr [.number f] = .ok r') : Tells cr r r' := by
  obtain ⟨hb, hne, hd, h0⟩ := before_of_ends he hs
  obtain ⟨ha, rfl⟩ := actAll_number hr
  have hvalue : f = .bytes → value r.text ≠ 0 := fun hf => value_ne_zero (hf ▸ ha) (h0 hf)
  obtain ⟨hmap, hnamed⟩ := hb.named.number hd hvalue
  have hnamed := hnamed (Reading.push { r with numbers := Function.update r.numbers f r.text } cr)
    rfl rfl
  have hwords := words_of_split hb.line.split hne
  rw [List.cons_append, List.append_assoc, ← hmap, ← fields_ends hk] at hwords
  rw [← fields_ends hk] at hnamed
  refine tells_of_calls hcs ⟨r.line, rfl, hb.line.kind, hb.line.no_cr, hnamed.digits,
    hnamed.bytes, fun i g hi => ?_⟩ rfl
  rw [hwords]
  exact congrArg decimal (getD_words hnamed.one (List.prefix_refl _) hi)

/-- A byte of a word, or behind one, with no action. -/
theorem tells_silent (hcs : r.cs = s') (hr : r.actAll b [] = .ok r') (h : Shapes (r.push b) s') :
    Tells b r r' := by
  cases hr
  exact tells_of_calls hcs h rfl

/-- A byte that begins a key or a number. -/
theorem tells_marked (hcs : r.cs = s')
    (h : Shapes (({ r with text := [] } : Reading).push b) s') : Tells b r { r with text := [] } :=
  tells_of_calls hcs h rfl

theorem actAll_markKey (hr : r.actAll b [.markKey] = .ok r') : r' = { r with text := [] } := by
  change (if r.keys.length < maxMultiGet then _ else _) = _ at hr
  split_ifs at hr
  cases hr
  rfl

/-- The command ends, and its callback is called. -/
theorem tells_finish {h rest : Bytes} (he : Ended r k h) (hline : r.line = h ++ cr :: rest)
    (hdata : k = .storage ∨ k = .cas → rest ++ [b] = lf :: (r.data ++ [cr, lf]) ∧
      r.data.length = (value (r.numbers .bytes)).toNat)
    (hcs : r.cs = .final) (hr : r.actAll b k.finish = .ok r') : Tells b r r' := by
  rw [actAll_finish] at hr
  obtain rfl := call_ok hr
  refine ⟨?_, fun c hc => ?_⟩
  · show Shapes _ r.cs
    rw [hcs]
    trivial
  · rcases List.mem_append.1 hc with hc | hc
    · exact .inl hc
    · rw [List.mem_singleton.1 hc, hline, List.append_assoc, List.cons_append]
      exact .inr (exact_iff_fits he hdata)

/-- A `delete` with no `exptime`. -/
theorem ended_of_delete {h : Bytes} (hkind : r.command.kind = .delete) (hcr : cr ∉ h)
    (hexp : r.numbers .exptime = []) (hword : decimal ((words h).getD 2 []) = 0) :
    Ended r .delete h := by
  refine ⟨hkind, hcr, fun f hf => ?_, (fun hf => by simp [Kind.fields] at hf), fun i f hi => ?_⟩
  · rw [List.mem_singleton.1 hf, hexp]
    exact digits_nil
  · rcases i with _ | i
    · cases hi
      rw [hexp]
      exact hword
    · cases hi

theorem tells_keyEnd (hk : k = .retrieval ∨ k = .delete) (hs : Shapes r (.inKey k))
    (hcs : r.cs = .cr k) : Tells cr r { r with keys := r.keys ++ [r.text] } := by
  obtain ⟨hl, hne, hkeys, hexp⟩ := hs
  refine tells_of_calls hcs ⟨r.line, rfl, ?_⟩ rfl
  rcases hk with rfl | rfl
  · exact ⟨hl.kind, hl.no_cr, (fun f hf => nomatch hf), (fun hf => nomatch hf),
      fun i f hi => nomatch hi⟩
  · refine ended_of_delete hl.kind hl.no_cr hexp ?_
    rw [words_of_split hl.split hne, hkeys (by decide)]
    rfl

theorem tells_noreplyEnd (hs : Shapes r (.noreply k 7)) (hcs : r.cs = .cr k) :
    Tells cr r { r with noreply := true } := by
  refine tells_of_calls hcs ⟨r.line, rfl, ?_⟩ rfl
  rcases hs with hb | ⟨rfl, hl, -, hn⟩
  · exact hb.ended rfl rfl
  · refine ended_of_delete hl.kind hl.no_cr (hn.fresh (by simp)) ?_
    obtain ⟨key, hkey⟩ := List.length_eq_one_iff.1 (hn.one (by decide))
    rw [words_of_split hl.split (by decide), hkey]
    show decimal ((text "noreply").take 7) = 0
    decide

/-- A byte of data. -/
theorem tells_data (hs : Shapes r .data) (hcs : r.cs = .data) : Tells b r (r.datum b) := by
  obtain ⟨k, h, stack, hstack, hline, he, hleft, hlen⟩ := hs
  have hpos : 0 < r.left.toNat := by
    rw [Nat.pos_iff_ne_zero]
    exact fun h0 => hleft (UInt64.toNat_inj.1 h0)
  have hsub : (r.left - 1).toNat = r.left.toNat - 1 := by
    rw [UInt64.toNat_sub_of_le]
    · rfl
    · rw [UInt64.le_iff_toNat_le]
      exact hpos
  have he' : ∀ r' : Reading, r'.command = r.command → r'.numbers = r.numbers → Ended r' k h :=
    fun r' hcmd hnum => by
      refine ⟨by rw [hcmd]; exact he.kind, he.no_cr, ?_, ?_, ?_⟩ <;> rw [hnum]
      · exact he.digits
      · exact he.bytes
      · exact he.told
  have hline' : r.line ++ [b] = h ++ ([cr, lf] ++ (r.data ++ [b])) := by
    rw [hline]
    simp
  unfold Reading.datum
  split_ifs with h0
  · have hcs' : r.stack.headD .error = .dataEnd k := by
      rw [hstack]
      rfl
    refine tells_of_calls hcs' ⟨h, hline', he' _ rfl rfl, ?_⟩ rfl
    rw [h0] at hsub
    show (r.data ++ [b]).length = (value (r.numbers .bytes)).toNat
    rw [List.length_append, ← hlen]
    have h1 : (0 : UInt64).toNat = 0 := rfl
    rw [List.length_singleton]
    omega
  · refine tells_of_calls hcs ⟨k, h, stack, hstack, hline', he' _ rfl rfl, h0, ?_⟩ rfl
    show (r.left - 1).toNat + (r.data ++ [b]).length = (value (r.numbers .bytes)).toNat
    rw [hsub, List.length_append, ← hlen, List.length_singleton]
    omega

/-- A byte that the grammar allows. -/
theorem Moves.tells (h : Moves s b as s') (hs : Shapes r s) (hcs : r.cs = s')
    (hr : r.actAll b as = .ok r') : Tells b r r' := by
  cases h with
  | begin hstart hg =>
    have hletter := goesOn_letter (w := []) hg
    have htells := tells_letters (r := { r with
      keys := []
      noreply := false
      numbers := Function.update r.numbers .exptime []
      line := [] }) (split_letter rfl hletter.1) (by simpa using hletter.2.symm)
      rfl (show Function.update r.numbers .exptime [] .exptime = [] from Function.update_self _ _ _)
      hcs hr
    exact ⟨htells.shapes, htells.calls⟩
  | @letter w _ hg =>
    obtain ⟨hsplit, hcr, hkeys, hexp, -⟩ := hs
    have hletter := goesOn_letter hg
    refine tells_letters (split_letter hsplit hletter.1) ?_ hkeys hexp hcs hr
    simp [hcr, hletter.2.symm]
  | @other c hk =>
    obtain ⟨hsplit, hcr, hkeys, hexp, hc⟩ := hs
    refine tells_silent hcs hr ?_
    refine ⟨r.line, rfl, ?_, hcr, ?_, ?_, ?_⟩
    · rw [← hk, ← hc c rfl]
      rfl
    · rintro f ⟨⟩
    · rintro ⟨⟩
    · rintro i f ⟨⟩
  | @command c hk =>
    obtain ⟨hsplit, hcr, hkeys, hexp, hc⟩ := hs
    refine tells_silent hcs hr ⟨⟨?_, ?_, ?_⟩, hkeys, hexp⟩
    · rw [← hc c rfl]
      rfl
    · rw [push_line, split_space hsplit (word_ne_nil c), ← hc c rfl]
      rfl
    · rw [push_line]
      simp only [List.mem_append, List.mem_singleton, hcr, false_or]
      decide
  | casSpace =>
    obtain ⟨hl, hkeys, hexp⟩ := hs
    exact tells_silent hcs hr ⟨hl.spaces rfl rfl, hkeys, hexp⟩
  | key hb =>
    obtain ⟨hl, hkeys, hexp⟩ := hs
    obtain rfl := actAll_markKey hr
    refine tells_marked hcs ⟨?_, by simp [Reading.push], fun _ => hkeys, hexp⟩
    show Line _ _ r.keys _
    rw [hkeys]
    exact hl.letter (isKeyByte_ne hb).1 (isKeyByte_ne hb).2 rfl rfl
  | keyByte hb =>
    obtain ⟨hl, hne, hkeys, hexp⟩ := hs
    refine tells_silent hcs hr ⟨?_, by simp [Reading.push], hkeys, hexp⟩
    exact hl.letter (isKeyByte_ne hb).1 (isKeyByte_ne hb).2 rfl rfl
  | keySpace =>
    obtain ⟨hl, hne, hkeys, hexp⟩ := hs
    cases hr
    refine tells_of_calls hcs ⟨hl.space hne rfl rfl, ?_, ?_, ?_, fun _ => hexp⟩ rfl
    · intro hk
      show (r.keys ++ [r.text]).length = 1
      rw [hkeys hk]
      rfl
    · rintro f ⟨⟩
    · rintro ⟨⟩
  | keyEnd hk =>
    cases hr
    exact tells_keyEnd hk hs hcs
  | nextKey hb =>
    obtain ⟨hl, hn⟩ := hs
    have hr : r.actAll b [.markKey] = .ok r' := hr
    obtain rfl := actAll_markKey hr
    refine tells_marked hcs ⟨?_, by simp [Reading.push], (fun h => absurd rfl h),
      hn.fresh (by simp)⟩
    exact hl.letter (isKeyByte_ne hb).1 (isKeyByte_ne hb).2 rfl rfl
  | pad hp => exact tells_silent hcs hr (behind_of_pads hp hs rfl rfl rfl rfl)
  | lineEnd hp => exact tells_silent hcs hr ⟨r.line, rfl, ended_of_pads hp hs rfl rfl⟩
  | zero hbeg hf =>
    have hb := before_of_begins hbeg hs
    cases hr
    refine tells_marked hcs ⟨⟨hb.mem, ?_, hb.named.congr rfl rfl⟩, rfl, hf⟩
    exact hb.line.letter (by decide) (by decide) rfl rfl
  | number hbeg hd h0 =>
    have hb := before_of_begins hbeg hs
    have hne := isDigit_ne hd
    cases hr
    refine tells_marked hcs ⟨⟨hb.mem, ?_, hb.named.congr rfl rfl⟩, by simp [Reading.push], ?_, ?_⟩
    · exact hb.line.letter hne.1 hne.2.1 rfl rfl
    · simpa [Reading.push] using hd
    · simpa [Reading.push] using h0
  | digit hd =>
    obtain ⟨hb, hne, hall, h0⟩ := hs
    have hbne := isDigit_ne hd
    refine tells_silent hcs hr
      ⟨⟨hb.mem, ?_, hb.named.congr rfl rfl⟩, by simp [Reading.push], ?_, ?_⟩
    · exact hb.line.letter hbne.1 hbne.2.1 rfl rfl
    · intro c hc
      rcases List.mem_append.1 hc with hc | hc
      · exact hall c hc
      · rw [List.mem_singleton.1 hc]
        exact hd
    · show (r.text ++ [b]).head? ≠ some 48
      rw [List.head?_append_of_ne_nil _ hne]
      exact h0
  | numberSpace he => exact tells_numberSpace he hs hcs hr
  | numberEnd he hk => exact tells_numberEnd he hs hk hcs hr
  | @noreply s k hor =>
    obtain rfl | ⟨rfl, rfl⟩ := hor
    · exact tells_silent hcs hr (.inl (hs.push (by decide) rfl rfl rfl rfl))
    · obtain ⟨hl, hn⟩ := hs
      refine tells_silent hcs hr (.inr ⟨rfl, ?_, Nat.one_pos, hn.congr rfl rfl⟩)
      exact hl.letter (by decide) (by decide) rfl rfl
  | @noreplyLetter k n b hb =>
    have hmem := List.mem_of_getElem? hb
    have hne : ∀ c ∈ text "noreply", c ≠ cr ∧ c ≠ space := by decide +kernel
    rcases hs with hbehind | ⟨rfl, hl, hn, hnamed⟩
    · exact tells_silent hcs hr (.inl (hbehind.push (hne b hmem).1 rfl rfl rfl rfl))
    · refine tells_silent hcs hr (.inr ⟨rfl, ?_, Nat.succ_pos n, hnamed.congr rfl rfl⟩)
      rw [List.take_add_one, hb]
      exact hl.letter (hne b hmem).2 (hne b hmem).1 rfl rfl
  | noreplySpace hk =>
    cases hr
    rcases hs with hbehind | ⟨rfl, -⟩
    · exact tells_of_calls hcs (hbehind.push (by decide) rfl rfl rfl rfl) rfl
    · cases hk
  | noreplyEnd =>
    cases hr
    exact tells_noreplyEnd hs hcs
  | @dataStart k hk =>
    obtain ⟨h, hline, he⟩ := hs
    cases hr
    have hmem : .bytes ∈ k.fields := by
      rcases hk with rfl | rfl <;> decide
    refine tells_of_calls (show Reading.cs _ = .data from rfl)
      ⟨k, h, r.stack, by rw [← hcs]; rfl, ?_,
      ⟨he.kind, he.no_cr, he.digits, he.bytes, he.told⟩, he.bytes hmem, rfl⟩ rfl
    rw [push_line, hline]
    simp [Reading.push]
  | line hk =>
    obtain ⟨h, hline, he⟩ := hs
    exact tells_finish he hline (fun hd => absurd hd hk) hcs hr
  | data =>
    cases hr
    exact tells_data hs hcs
  | dataEnd =>
    obtain ⟨h, hline, he, hlen⟩ := hs
    refine tells_silent hcs hr ⟨h, ?_, ⟨he.kind, he.no_cr, he.digits, he.bytes, he.told⟩, hlen⟩
    rw [push_line, hline]
    simp [Reading.push]
  | dataLine =>
    obtain ⟨h, hline, he, hlen⟩ := hs
    exact tells_finish he hline (fun _ => ⟨by simp, hlen⟩) hcs hr

/-- The state itself is not among what it says. -/
theorem Shapes.setCs (h : Shapes r s) (x : State) : Shapes { r with cs := x } s := by
  have hline : ∀ {k ws cur}, Line r k ws cur → Line { r with cs := x } k ws cur :=
    fun h => ⟨h.kind, h.split, h.no_cr⟩
  have hbefore : ∀ {k f cur}, Before r k f cur → Before { r with cs := x } k f cur :=
    fun h => ⟨h.mem, hline h.line, h.named.congr rfl rfl⟩
  have hbehind : ∀ {k}, Behind r k → Behind { r with cs := x } k :=
    fun h => ⟨h.kind, h.no_cr, h.words, h.named.congr rfl rfl⟩
  have hended : ∀ {k l}, Ended r k l → Ended { r with cs := x } k l :=
    fun h => ⟨h.kind, h.no_cr, h.digits, h.bytes, h.told⟩
  cases s with
  | start => trivial
  | final => trivial
  | error => trivial
  | word w => exact h
  | beforeKey k => exact ⟨hline h.1, h.2⟩
  | inKey k => exact ⟨hline h.1, h.2⟩
  | afterKey k => exact ⟨hline h.1, h.2.congr rfl rfl⟩
  | beforeNumber k f => exact hbefore h
  | zero k f => exact ⟨hbefore h.1, h.2⟩
  | digits k f => exact ⟨hbefore h.1, h.2⟩
  | tail k => exact hbehind h
  | pad k => exact hbehind h
  | noreply k n =>
    refine h.imp hbehind fun ⟨hk, hl, hn, hnamed⟩ => ?_
    exact ⟨hk, hline hl, hn, hnamed.congr rfl rfl⟩
  | cr k =>
    obtain ⟨l, hl, he⟩ := h
    exact ⟨l, hl, hended he⟩
  | data =>
    obtain ⟨k, l, stack, hstack, hl, he, hrest⟩ := h
    exact ⟨k, l, stack, hstack, hl, hended he, hrest⟩
  | dataEnd k =>
    obtain ⟨l, hl, he, hlen⟩ := h
    exact ⟨l, hl, hended he, hlen⟩
  | dataCr k =>
    obtain ⟨l, hl, he, hlen⟩ := h
    exact ⟨l, hl, hended he, hlen⟩

/-- The lines of the commands say what the callbacks are given. -/
structure Told (r : Reading) : Prop where
  shapes : Shapes r r.cs
  calls : ∀ c ∈ r.calls, c.Exact ↔ c.Fits

theorem told_init : Told .init := ⟨trivial, fun _ hc => nomatch hc⟩

theorem Told.feed (h : Told r) (hr : r.feed b = .ok r') : Told r' := by
  unfold Reading.feed at hr
  simp only [] at hr
  split_ifs at hr with herr
  rcases hx : Reading.actAll { r with cs := (next r.cs b).2 } b (next r.cs b).1 with
    r1 | r1 | r1 | r1 <;> rw [hx] at hr
  · cases hr
    have htells := (moves_next herr).tells (h.shapes.setCs _) rfl hx
    refine ⟨htells.shapes, fun c hc => ?_⟩
    exact (htells.calls c hc).elim (h.calls c) id
  all_goals cases hr

/-- A command that is rejected, or that leaves the tables, makes no call. -/
theorem Moves.stops (h : Moves s b as s')
    (hr : r.actAll b as = .convertError r' ∨ r.actAll b as = .overrun r') : r'.calls = r.calls := by
  have hcmds : ∀ {w r1 r'}, (Reading.actAll r1 b (cmds w) = .convertError r' ∨
      Reading.actAll r1 b (cmds w) = .overrun r') → r'.calls = r.calls := fun {w r1 r'} hr => by
    obtain ⟨c, hact, -⟩ := actAll_cmds (b := b) w r1
    rw [hact] at hr
    rcases hr with hr | hr <;> cases hr
  have hcall : ∀ {k : Kind}, (r.actAll b k.finish = .convertError r' ∨
      r.actAll b k.finish = .overrun r') → r'.calls = r.calls := fun {k} hr => by
    rw [actAll_finish, Reading.call] at hr
    split_ifs at hr
    · rcases hr with hr | hr <;> cases hr
    · rcases hr with hr | hr <;> cases hr
      rfl
  have hkey : (r.actAll b [.markKey] = .convertError r' ∨ r.actAll b [.markKey] = .overrun r') →
      r'.calls = r.calls := fun hr => by
    change (if r.keys.length < maxMultiGet then _ else _) = _ ∨
      (if r.keys.length < maxMultiGet then _ else _) = _ at hr
    split_ifs at hr
    · rcases hr with hr | hr <;> cases hr
    · rcases hr with hr | hr <;> cases hr
      rfl
  have hnumber : ∀ {f : Field}, (r.actAll b [.number f] = .convertError r' ∨
      r.actAll b [.number f] = .overrun r') → r'.calls = r.calls := fun {f} hr => by
    change (if accepts f r.text then _ else _) = _ ∨ (if accepts f r.text then _ else _) = _ at hr
    split_ifs at hr
    · rcases hr with hr | hr <;> cases hr
    · rcases hr with hr | hr <;> cases hr
      rfl
  cases h with
  | begin _ _ => exact hcmds hr
  | letter _ => exact hcmds hr
  | key _ => exact hkey hr
  | nextKey _ => exact hkey hr
  | numberSpace _ => exact hnumber hr
  | numberEnd _ _ => exact hnumber hr
  | line _ => exact hcall hr
  | dataLine => exact hcall hr
  | _ => rcases hr with hr | hr <;> cases hr

/-- A byte that is not read makes no call. -/
theorem feed_stops (hr : r.feed b = .convertError r' ∨ r.feed b = .overrun r') :
    r'.calls = r.calls := by
  unfold Reading.feed at hr
  simp only [] at hr
  by_cases herr : (next r.cs b).2 = .error
  · rw [if_pos herr] at hr
    rcases hr with hr | hr <;> cases hr
    rfl
  · rw [if_neg herr] at hr
    rcases hx : Reading.actAll { r with cs := (next r.cs b).2 } b (next r.cs b).1 with
      r1 | r1 | r1 | r1 <;> rw [hx] at hr <;> rcases hr with hr | hr <;> cases hr
    · exact (moves_next herr).stops (r := { r with cs := (next r.cs b).2 }) (.inl hx)
    · exact (moves_next herr).stops (r := { r with cs := (next r.cs b).2 }) (.inr hx)

/-- What there is at the end, however it ends. -/
def Outcome.get {α : Type} : Outcome α → α
  | .ok a | .convertError a | .overrun a | .fault a => a

/-- Every callback that a reading calls is given the numbers of its command just where they fit. -/
theorem Told.feedAll : ∀ (bs : Bytes) {r : Reading}, Told r →
    (∀ r', r.feedAll bs ≠ .fault r') → ∀ c ∈ (r.feedAll bs).get.calls, c.Exact ↔ c.Fits
  | [], r, h, _ => h.calls
  | b :: bs, r, h, hf => by
    change ∀ c ∈ ((r.feed b).andThen fun r => r.feedAll bs).get.calls, _
    change ∀ r', ((r.feed b).andThen fun r => r.feedAll bs) ≠ _ at hf
    rcases hx : r.feed b with r1 | r1 | r1 | r1 <;> rw [hx] at hf
    · exact Told.feedAll bs (h.feed hx) hf
    · show ∀ c ∈ r1.calls, _
      rw [feed_stops (.inl hx)]
      exact h.calls
    · show ∀ c ∈ r1.calls, _
      rw [feed_stops (.inr hx)]
      exact h.calls
    · exact absurd rfl (hf r1)

end Moved

end Memtext

namespace TextConn

open Memtext Machine
open Text (text)

variable {o : Options} {s u : TextConn} {as : List Act} {a : Act} {st : Bytes}

/-- What is read is behind what the parser has seen. -/
theorem Follows.unread {t : UInt32} {bytes : Bytes} (h : Follows st s)
    (hstep : step o s (.readEvent t (.bytes bytes)) = some u) :
    ∃ r b, Reading.init.feedAll st = .ok r ∧
      s.buffer.reserveBuffer memtextReserveSize initialBufferSize = some b ∧
        Unread bytes r (({ s with buffer := b } : TextConn).filled bytes) ∧ s.off ≤ st.length := by
  unfold step at hstep
  simp only [] at hstep
  split_ifs at hstep with hrun
  obtain ⟨r, hr, -, hreads⟩ := h.running (not_not.1 hrun)
  obtain ⟨b, hb, hw, hd, -⟩ := reserveBuffer_wf hreads.wf hreads.length_le
  simp only [hb] at hstep
  split_ifs at hstep with hposs
  exact ⟨r, b, hr, hb, (hreads.reserved hw hd hposs.1).filled hposs.2.2, hreads.off_le⟩

/-- The parser of a connection marks each `exptime` as the reading needs it. -/
theorem near_of_guard (h : Follows st s) (hg : Guard (fun p m => m.Close p) o s a)
    (hstep : step o s a = some u) :
    ∀ r, Reading.init.feedAll st = .ok r → Near s.off a.bytes r := by
  intro r hr
  rcases a with ⟨t, bytes | _ | errno⟩ | _ | n
  · obtain ⟨r', b, hr', hb, hunread, -⟩ := h.unread hstep
    obtain rfl : r = r' := by
      rw [hr] at hr'
      cases hr'
      rfl
    have hheeds := hg b hb
    unfold Heeds at hheeds
    rw [hunread.size, Nat.add_sub_cancel_left] at hheeds
    exact hunread.sim.near bytes hunread.take_drop hheeds
  all_goals trivial

theorem follows_guarded (h : Run (step o) (Guard (fun p m => m.Close p) o) s as u) :
    ∀ st, Follows st s → Follows (st ++ stream as) u := by
  induction h with
  | nil s =>
    intro st hs
    rwa [show stream [] = [] from rfl, List.append_nil]
  | @cons s v u a as hg hstep _ ih =>
    intro st hs
    have happ : st ++ stream (a :: as) = (st ++ a.bytes) ++ stream as := by
      simp [stream]
    rw [happ]
    exact ih _ (follows_step hs (near_of_guard hs hg hstep) hstep)

theorem Follows.calls (h : Follows st u) : u.calls = (Reading.init.feedAll st).get.calls ∧
    ∀ r, Reading.init.feedAll st ≠ .fault r := by
  unfold Follows at h
  rcases hx : Reading.init.feedAll st with r | r | r | r <;> rw [hx] at h
  · exact ⟨h.1, by simp⟩
  · exact ⟨h.1, by simp⟩
  · exact ⟨h.1, by simp⟩
  · exact h.elim

/-- Of a stream of 4 GiB at most every `exptime` is marked within 32 bits. -/
theorem guard_of_short (h : Run (step o) Free s as u) : ∀ st, Follows st s →
    (st ++ stream as).length ≤ 2 ^ 32 → Run (step o) (Guard (fun p m => m.Close p) o) s as u := by
  induction h with
  | nil s => exact fun _ _ _ => .nil s
  | @cons s v u a as _ hstep _ ih =>
    intro st hs hlen
    have happ : st ++ stream (a :: as) = (st ++ a.bytes) ++ stream as := by
      simp [stream]
    rw [happ] at hlen
    have hg : Guard (fun p m => m.Close p) o s a := by
      rcases a with ⟨t, bytes | _ | errno⟩ | _ | n
      · obtain ⟨r, b, -, hb, hunread, hoff⟩ := hs.unread hstep
        intro b' hb'
        obtain rfl : b = b' := by
          rw [hb] at hb'
          cases hb'
          rfl
        unfold Heeds
        rw [hunread.size, Nat.add_sub_cancel_left]
        refine heeds_of_le ?_
        rw [List.length_append, List.length_append] at hlen
        exact (Nat.add_le_add_right hoff _).trans ((Nat.le_add_right _ _).trans hlen)
      all_goals trivial
    exact .cons hg hstep (ih _ (follows_step hs (near_of_guard hs hg hstep) hstep) hlen)

/-- A callback is given the numbers of its command just where the fields they go through have room
for them. -/
theorem calls_exact_iff (h : Run (step o) (Guard (fun p m => m.Close p) o) init as u) :
    ∀ c ∈ u.calls, c.Exact ↔ c.Fits := by
  have hfollows : Follows (stream as) u := follows_guarded h [] follows_init
  obtain ⟨hcalls, hf⟩ := hfollows.calls
  rw [hcalls]
  exact told_init.feedAll _ hf

theorem calls_exact_iff_set : ∃ as u,
    Run (step ⟨true, true⟩) (Guard (fun p m => m.Close p) ⟨true, true⟩) init as u ∧
      stream as = text "set k 7 0 1\r\na\r\n" ∧ ∀ c ∈ u.calls, c.Exact ↔ c.Fits := by
  obtain ⟨r, hr⟩ : ∃ r, Reading.init.feedAll (text "set k 7 0 1\r\na\r\n") = .ok r := ⟨_, rfl⟩
  obtain ⟨as, u, hrun, hst, -⟩ := exists_run (o := ⟨true, true⟩) (text "set k 7 0 1\r\na\r\n")
    follows_init rfl mem_init (by decide) (fun r _ => ⟨0, le_rfl, near_of_le (by decide)⟩) hr
  have hg := guard_of_short hrun [] follows_init (by rw [hst]; decide)
  exact ⟨as, u, hg, hst, calls_exact_iff hg⟩

/-- The flags of a `set` are 65536, and the callback is given 0. -/
theorem not_calls_exact : ¬ ∀ (o : Options) (as : List Act) (u : TextConn),
    Run (step o) Free init as u → ∀ c ∈ u.calls, c.Exact := by
  intro hall
  obtain ⟨r, c, hr, hcalls, hexact⟩ : ∃ r c, Reading.init.feedAll
      (text "set k 65536 0 1\r\na\r\n") = .ok r ∧ r.calls = [c] ∧ ¬ c.Exact :=
    ⟨_, _, rfl, rfl, by decide⟩
  obtain ⟨as, u, hrun, hst, hu, hstatus, -⟩ := exists_run (o := ⟨true, true⟩)
    (text "set k 65536 0 1\r\na\r\n") follows_init rfl mem_init (by decide)
    (fun r _ => ⟨0, le_rfl, near_of_le (by decide)⟩) hr
  have hcalls' := hu.calls.1
  rw [List.nil_append, hr] at hcalls'
  refine hexact (hall _ as u hrun c ?_)
  rw [hcalls', Outcome.get, hcalls]
  exact List.mem_singleton_self c

end TextConn

end Kumofs.Gate
