import Kumofs.Proofs.Grammar

/-!
# The words of a line

What the reading keeps of a command against what is written in its line: the words of the line are
the command, the keys and the numbers, and what comes behind the line is the data.
-/

namespace Kumofs.Gate.Memtext

open Text (text)

/-! ## Numbers -/

section Numbers

variable {s : Bytes} {b : UInt8} {f : Field}

/-- As the grammar has numbers, or nothing. -/
def Digits (s : Bytes) : Prop := (∀ b ∈ s, isDigit b) ∧ (s.head? = some 48 → s = [48])

theorem digits_nil : Digits [] := ⟨by simp, by simp⟩

theorem isDigit_iff : isDigit b ↔ 48 ≤ b.toNat ∧ b.toNat ≤ 57 := by
  unfold isDigit
  rw [Bool.and_eq_true, decide_eq_true_eq, decide_eq_true_eq, UInt8.le_iff_toNat_le,
    UInt8.le_iff_toNat_le]
  rfl

theorem isDigit_ne (h : isDigit b) : b ≠ space ∧ b ≠ cr ∧ isSpace b = false ∧ b ≠ 45 ∧ b ≠ 43 := by
  have hb := isDigit_iff.1 h
  have hne : ∀ c : UInt8, c.toNat < 48 → b ≠ c := fun c hc he => by
    subst he
    omega
  refine ⟨hne _ (by decide), hne _ (by decide), ?_, hne _ (by decide), hne _ (by decide)⟩
  unfold isSpace
  rw [Bool.or_eq_false_iff, Bool.and_eq_false_iff, decide_eq_false_iff_not, decide_eq_false_iff_not,
    decide_eq_false_iff_not, UInt8.le_iff_toNat_le, UInt8.le_iff_toNat_le]
  refine ⟨hne _ (by decide), .inr ?_⟩
  show ¬ b.toNat ≤ 13
  omega

/-- `strtoul` of digits. -/
theorem strtoul_digits (h : ∀ b ∈ s, isDigit b) :
    strtoul s = UInt64.ofNat (min (decimal s) (2 ^ 64 - 1)) := by
  rcases s with _ | ⟨b, s⟩
  · rfl
  · obtain ⟨-, -, hspace, hminus, hplus⟩ := isDigit_ne (h b List.mem_cons_self)
    unfold strtoul
    rw [List.dropWhile_cons_of_neg (by simp [hspace])]
    simp only []
    split
    · next he => exact absurd (List.cons.inj he).1 hminus
    · next he => exact absurd (List.cons.inj he).1 hplus
    · rfl

/-- A number is what its digits are, up to the largest one. -/
theorem toNat_value (h : Digits s) : (value s).toNat = min (decimal s) (2 ^ 64 - 1) := by
  unfold value
  split_ifs with h0
  · rw [h.2 h0]
    rfl
  · rw [strtoul_digits h.1, UInt64.toNat_ofNat']
    omega

theorem value_ne_zero (h : accepts .bytes s) (h0 : s.head? ≠ some 48) : value s ≠ 0 := by
  unfold accepts at h
  rw [Bool.or_eq_true, decide_eq_true_eq, Bool.and_eq_true, decide_eq_true_eq,
    decide_eq_true_eq] at h
  obtain h | ⟨-, h⟩ := h
  · exact absurd h h0
  · unfold value
    rw [if_neg h0]
    intro he
    rw [he] at h
    exact h rfl

end Numbers

/-! ## Words -/

section Split

variable {l : Bytes} {b : UInt8} {ws : List Bytes} {cur : Bytes}

theorem split_snoc (l : Bytes) (b : UInt8) : split (l ++ [b]) = splitStep (split l) b := by
  unfold split
  rw [List.foldl_append]
  rfl

theorem split_letter (h : split l = (ws, cur)) (hb : b ≠ space) :
    split (l ++ [b]) = (ws, cur ++ [b]) := by
  rw [split_snoc, h, splitStep, if_neg hb]

theorem split_space (h : split l = (ws, cur)) (hc : cur ≠ []) :
    split (l ++ [space]) = (ws ++ [cur], []) := by
  rw [split_snoc, h, splitStep, if_pos rfl, if_neg hc]

theorem split_spaces (h : split l = (ws, [])) : split (l ++ [space]) = (ws, []) := by
  rw [split_snoc, h, splitStep, if_pos rfl, if_pos rfl]

/-- A word that has ended stays. -/
theorem prefix_split_snoc (l : Bytes) (b : UInt8) : (split l).1 <+: (split (l ++ [b])).1 := by
  rw [split_snoc]
  unfold splitStep
  split_ifs
  · exact List.prefix_refl _
  · exact List.prefix_append _ _
  · exact List.prefix_refl _

theorem prefix_words (l : Bytes) : (split l).1 <+: words l := List.prefix_append _ _

theorem words_of_split (h : split l = (ws, cur)) (hc : cur ≠ []) : words l = ws ++ [cur] := by
  rw [words, h]
  simp only [if_neg hc]

end Split

/-! ## What a state says of the line -/

section Shape

/-- The words of the line, and the one that goes on. -/
structure Line (r : Reading) (k : Kind) (ws : List Bytes) (cur : Bytes) : Prop where
  kind : r.command.kind = k
  split : split r.line = (r.command.word :: ws, cur)
  no_cr : cr ∉ r.line

/-- What is kept of the key and of the numbers `fs`. -/
structure Named (r : Reading) (k : Kind) (fs : List Field) : Prop where
  one : k ≠ .retrieval → r.keys.length = 1
  digits : ∀ f ∈ fs, Digits (r.numbers f)
  bytes : .bytes ∈ fs → value (r.numbers .bytes) ≠ 0
  fresh : .exptime ∉ fs → r.numbers .exptime = []

/-- The numbers before `f` are read. -/
structure Before (r : Reading) (k : Kind) (f : Field) (cur : Bytes) : Prop where
  mem : f ∈ k.fields
  line : Line r k (r.keys ++ (k.before f).map r.numbers) cur
  named : Named r k (k.before f)

/-- The numbers are read, and the line goes on. -/
structure Behind (r : Reading) (k : Kind) : Prop where
  kind : r.command.kind = k
  no_cr : cr ∉ r.line
  words : r.command.word :: (r.keys ++ k.fields.map r.numbers) <+: (split r.line).1
  named : Named r k k.fields

/-- The first line is `h`, and it says the numbers. -/
structure Ended (r : Reading) (k : Kind) (h : Bytes) : Prop where
  kind : r.command.kind = k
  no_cr : cr ∉ h
  digits : ∀ f ∈ k.fields, Digits (r.numbers f)
  bytes : .bytes ∈ k.fields → value (r.numbers .bytes) ≠ 0
  told : ∀ i f, k.fields[i]? = some f →
    decimal ((Memtext.words h).getD (i + 2) []) = decimal (r.numbers f)

/-- What a state says of the line so far. -/
def Shapes (r : Reading) : State → Prop
  | .start | .final | .error => True
  | .word w => split r.line = ([], w) ∧ cr ∉ r.line ∧ r.keys = [] ∧ r.numbers .exptime = [] ∧
      ∀ c : Command, c.word = w → r.command = c
  | .beforeKey k => Line r k [] [] ∧ r.keys = [] ∧ r.numbers .exptime = []
  | .inKey k => Line r k r.keys r.text ∧ r.text ≠ [] ∧ (k ≠ .retrieval → r.keys = []) ∧
      r.numbers .exptime = []
  | .afterKey k => Line r k r.keys [] ∧ Named r k []
  | .beforeNumber k f => Before r k f []
  | .zero k f => Before r k f r.text ∧ r.text = [48] ∧ f ≠ .bytes
  | .digits k f => Before r k f r.text ∧ r.text ≠ [] ∧ (∀ b ∈ r.text, isDigit b) ∧
      r.text.head? ≠ some 48
  | .tail k | .pad k => Behind r k
  | .noreply k n => Behind r k ∨
      k = .delete ∧ Line r k r.keys ((text "noreply").take n) ∧ 0 < n ∧ Named r k []
  | .cr k => ∃ h, r.line = h ++ [cr] ∧ Ended r k h
  | .data => ∃ k h stack, r.stack = .dataEnd k :: stack ∧ r.line = h ++ ([cr, lf] ++ r.data) ∧
      Ended r k h ∧ r.left ≠ 0 ∧ r.left.toNat + r.data.length = (value (r.numbers .bytes)).toNat
  | .dataEnd k => ∃ h, r.line = h ++ ([cr, lf] ++ r.data) ∧ Ended r k h ∧
      r.data.length = (value (r.numbers .bytes)).toNat
  | .dataCr k => ∃ h, r.line = h ++ ([cr, lf] ++ (r.data ++ [cr])) ∧ Ended r k h ∧
      r.data.length = (value (r.numbers .bytes)).toNat

variable {r r' : Reading} {k : Kind} {f : Field} {ws : List Bytes} {cur h : Bytes} {b : UInt8}
  {fs : List Field}

theorem Line.letter (hl : Line r k ws cur) (hb : b ≠ space) (hc : b ≠ cr)
    (hcmd : r'.command = r.command) (hline : r'.line = r.line ++ [b]) :
    Line r' k ws (cur ++ [b]) := by
  refine ⟨by rw [hcmd]; exact hl.kind, ?_, ?_⟩
  · rw [hline, hcmd]
    exact split_letter hl.split hb
  · rw [hline]
    simp [hl.no_cr, hc.symm]

theorem Line.space (hl : Line r k ws cur) (hc : cur ≠ []) (hcmd : r'.command = r.command)
    (hline : r'.line = r.line ++ [Memtext.space]) : Line r' k (ws ++ [cur]) [] := by
  refine ⟨by rw [hcmd]; exact hl.kind, ?_, ?_⟩
  · rw [hline, hcmd]
    exact split_space hl.split hc
  · rw [hline]
    simp only [List.mem_append, List.mem_singleton, hl.no_cr, false_or]
    decide

theorem Line.spaces (hl : Line r k ws []) (hcmd : r'.command = r.command)
    (hline : r'.line = r.line ++ [Memtext.space]) : Line r' k ws [] := by
  refine ⟨by rw [hcmd]; exact hl.kind, ?_, ?_⟩
  · rw [hline, hcmd]
    exact split_spaces hl.split
  · rw [hline]
    simp only [List.mem_append, List.mem_singleton, hl.no_cr, false_or]
    decide

theorem Named.congr (hn : Named r k fs) (hkeys : r'.keys = r.keys)
    (hnum : r'.numbers = r.numbers) : Named r' k fs := by
  refine ⟨?_, ?_, ?_, ?_⟩
  · rw [hkeys]
    exact hn.one
  · rw [hnum]
    exact hn.digits
  · rw [hnum]
    exact hn.bytes
  · rw [hnum]
    exact hn.fresh

theorem Behind.push (hb : Behind r k) (hc : b ≠ cr) (hcmd : r'.command = r.command)
    (hline : r'.line = r.line ++ [b]) (hkeys : r'.keys = r.keys) (hnum : r'.numbers = r.numbers) :
    Behind r' k := by
  refine ⟨by rw [hcmd]; exact hb.kind, ?_, ?_, hb.named.congr hkeys hnum⟩
  · rw [hline]
    simp [hb.no_cr, hc.symm]
  · rw [hcmd, hkeys, hnum, hline]
    exact hb.words.trans (prefix_split_snoc _ _)

/-- The words of the line with all of its numbers. -/
theorem Line.behind (hl : Line r k (r.keys ++ k.fields.map r.numbers) [])
    (hn : Named r k k.fields) : Behind r k :=
  ⟨hl.kind, hl.no_cr, hl.split ▸ List.prefix_refl _, hn⟩

/-- A number is the word at its place. -/
theorem getD_words (hn : k ≠ .retrieval → r.keys.length = 1)
    (hp : r.command.word :: (r.keys ++ k.fields.map r.numbers) <+: ws) {i : ℕ}
    (hi : k.fields[i]? = some f) : ws.getD (i + 2) [] = r.numbers f := by
  have hk : k ≠ .retrieval := fun he => by
    subst he
    cases hi
  obtain ⟨key, hkeys⟩ := List.length_eq_one_iff.1 (hn hk)
  obtain ⟨t, rfl⟩ := hp
  have hlt := (List.getElem?_eq_some_iff.1 hi).1
  rw [hkeys, List.getD_eq_getElem?_getD]
  simp only [List.cons_append, List.nil_append, List.getElem?_cons_succ]
  rw [List.getElem?_append_left (by simpa using hlt), List.getElem?_map, hi]
  rfl

theorem Behind.ended (hb : Behind r k) (hcmd : r'.command = r.command)
    (hnum : r'.numbers = r.numbers) : Ended r' k r.line := by
  refine ⟨by rw [hcmd]; exact hb.kind, hb.no_cr, ?_, ?_, fun i f hi => ?_⟩
  · rw [hnum]
    exact hb.named.digits
  · rw [hnum]
    exact hb.named.bytes
  · rw [getD_words hb.named.one (hb.words.trans (prefix_words _)) hi, hnum]

end Shape

end Kumofs.Gate.Memtext
