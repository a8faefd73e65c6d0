import Kumofs.Gate.Reading

/-!
# The transitions of the text protocol

`Moves` lists what the grammar lets follow, with the actions that are taken. Every fact about the
parser goes by its cases.
-/

namespace Kumofs.Gate.Memtext

open Text (text)

/-! ## The letters of commands -/

theorem letters (c : Command) : ∀ b ∈ c.word, b ≠ space ∧ b ≠ cr := by
  cases c <;> decide +kernel

theorem word_ne_nil (c : Command) : c.word ≠ [] := by
  cases c <;> decide

/-- A letter that goes on a command is no space, and does not end the line. -/
theorem goesOn_letter {w : Bytes} {b : UInt8} (h : goesOn (w ++ [b])) : b ≠ space ∧ b ≠ cr := by
  simp only [goesOn, List.any_eq_true, List.isPrefixOf_iff_prefix] at h
  obtain ⟨c, -, hc⟩ := h
  exact letters c b (hc.subset (by simp))

theorem cmds_word (c : Command) : cmds c.word = [.cmd c] := by
  cases c <;> decide

theorem word_injective {c d : Command} (h : c.word = d.word) : c = d := by
  have hc := cmds_word c
  rw [h, cmds_word d] at hc
  simpa using hc.symm

theorem cmds_none {w : Bytes} (h : ∀ c : Command, c.word ≠ w) : cmds w = [] := by
  simp only [cmds, List.map_eq_nil_iff, List.filter_eq_nil_iff, decide_eq_true_eq]
  exact fun c _ => h c

theorem find_word {w : Bytes} {c : Command} (h : Command.all.find? (·.word = w) = some c) :
    c.word = w := by
  simpa using List.find?_some h

/-! ## The numbers of a command -/

namespace Kind

/-- The numbers of a command, in their order. -/
def fields : Kind → List Field
  | .storage => [.flags, .exptime, .bytes]
  | .cas => [.flags, .exptime, .bytes, .casUnique]
  | .delete => [.exptime]
  | .numeric => [.casUnique]
  | .retrieval | .other => []

/-- The numbers before one. -/
def before (k : Kind) (f : Field) : List Field := k.fields.takeWhile (· ≠ f)

theorem not_mem_before {k : Kind} {f : Field} : f ∉ k.before f := by
  cases k <;> cases f <;> decide

end Kind

/-- In that state a number of a command is begun. -/
inductive Begins : State → Kind → Field → Prop
  | storage : Begins (.afterKey .storage) .storage .flags
  | cas : Begins (.afterKey .cas) .cas .flags
  | delete : Begins (.afterKey .delete) .delete .exptime
  | numeric : Begins (.afterKey .numeric) .numeric .casUnique
  | next (k : Kind) (f : Field) : Begins (.beforeNumber k f) k f

/-- In that state a number may end. -/
inductive Ends : State → Kind → Field → Prop
  | zero (k : Kind) (f : Field) : Ends (.zero k f) k f
  | digits (k : Kind) (f : Field) : Ends (.digits k f) k f

/-- In that state the words of the line may have ended. -/
inductive Pads : State → Kind → Prop
  | retrieval : Pads (.afterKey .retrieval) .retrieval
  | tail {k : Kind} : k.pads → Pads (.tail k) k
  | pad (k : Kind) : Pads (.pad k) k

inductive Moves : State → UInt8 → List Action → State → Prop
  | begin {s : State} {b : UInt8} : s = .start ∨ s = .final → goesOn [b] →
      Moves s b (.reset :: cmds [b]) (.word [b])
  | letter {w : Bytes} {b : UInt8} : goesOn (w ++ [b]) →
      Moves (.word w) b (cmds (w ++ [b])) (.word (w ++ [b]))
  | other {c : Command} : c.kind = .other → Moves (.word c.word) cr [] (.cr .other)
  | command {c : Command} : c.kind ≠ .other → Moves (.word c.word) space [] (.beforeKey c.kind)
  | casSpace : Moves (.beforeKey .cas) space [] (.beforeKey .cas)
  | key {k : Kind} {b : UInt8} : isKeyByte b → Moves (.beforeKey k) b [.markKey] (.inKey k)
  | keyByte {k : Kind} {b : UInt8} : isKeyByte b → Moves (.inKey k) b [] (.inKey k)
  | keySpace {k : Kind} : Moves (.inKey k) space [.key] (.afterKey k)
  | keyEnd {k : Kind} : k = .retrieval ∨ k = .delete → Moves (.inKey k) cr [.key] (.cr k)
  | nextKey {b : UInt8} : isKeyByte b →
      Moves (.afterKey .retrieval) b [.incrKey, .markKey] (.inKey .retrieval)
  | pad {s : State} {k : Kind} : Pads s k → Moves s space [] (.pad k)
  | lineEnd {s : State} {k : Kind} : Pads s k → Moves s cr [] (.cr k)
  | zero {s : State} {k : Kind} {f : Field} : Begins s k f → f ≠ .bytes →
      Moves s 48 [.mark f] (.zero k f)
  | number {s : State} {k : Kind} {f : Field} {b : UInt8} : Begins s k f → isDigit b → b ≠ 48 →
      Moves s b [.mark f] (.digits k f)
  | digit {k : Kind} {f : Field} {b : UInt8} : isDigit b → Moves (.digits k f) b [] (.digits k f)
  | numberSpace {s : State} {k : Kind} {f : Field} : Ends s k f →
      Moves s space [.number f] (k.follow f)
  | numberEnd {s : State} {k : Kind} {f : Field} : Ends s k f → k.ends f →
      Moves s cr [.number f] (.cr k)
  | noreply {s : State} {k : Kind} : s = .tail k ∨ s = .afterKey k ∧ k = .delete →
      Moves s 110 [] (.noreply k 1)
  | noreplyLetter {k : Kind} {n : ℕ} {b : UInt8} : (text "noreply")[n]? = some b →
      Moves (.noreply k n) b [] (.noreply k (n + 1))
  | noreplySpace {k : Kind} : k.pads → Moves (.noreply k 7) space [.noreply] (.pad k)
  | noreplyEnd {k : Kind} : Moves (.noreply k 7) cr [.noreply] (.cr k)
  | dataStart {k : Kind} : k = .storage ∨ k = .cas → Moves (.cr k) lf [.dataStart] (.dataEnd k)
  | line {k : Kind} : ¬ (k = .storage ∨ k = .cas) → Moves (.cr k) lf k.finish .final
  | data {b : UInt8} : Moves .data b [.data] .data
  | dataEnd {k : Kind} : Moves (.dataEnd k) cr [] (.dataCr k)
  | dataLine {k : Kind} : Moves (.dataCr k) lf k.finish .final

theorem moves_command {s : State} {b : UInt8} (hs : s = .start ∨ s = .final)
    (h : (command b).2 ≠ .error) : Moves s b (command b).1 (command b).2 := by
  unfold command at h ⊢
  split_ifs at h ⊢ with hb
  · exact .begin hs hb
  · exact absurd rfl h

theorem moves_number {s : State} {k : Kind} {f : Field} {b : UInt8} (hs : Begins s k f)
    (h : (number k f b).2 ≠ .error) : Moves s b (number k f b).1 (number k f b).2 := by
  unfold number at h ⊢
  split_ifs at h ⊢ with h0 hd
  · obtain ⟨rfl, hf⟩ := h0
    exact .zero hs hf
  · exact .number hs hd.2 hd.1
  · exact absurd rfl h

theorem moves_numberEnd {s : State} {k : Kind} {f : Field} {b : UInt8} (hs : Ends s k f)
    (h : (numberEnd k f b).2 ≠ .error) :
    Moves s b (numberEnd k f b).1 (numberEnd k f b).2 := by
  unfold numberEnd at h ⊢
  split_ifs at h ⊢ with hb hc
  · subst hb
    exact .numberSpace hs
  · obtain ⟨rfl, he⟩ := hc
    exact .numberEnd hs he
  · exact absurd rfl h

theorem moves_word {w : Bytes} {b : UInt8} (h : (next (.word w) b).2 ≠ .error) :
    Moves (.word w) b (next (.word w) b).1 (next (.word w) b).2 := by
  by_cases hg : goesOn (w ++ [b])
  · have hn : next (.word w) b = (cmds (w ++ [b]), .word (w ++ [b])) := if_pos hg
    rw [hn]
    exact .letter hg
  rcases hf : Command.all.find? (·.word = w) with _ | c
  · have hn : next (.word w) b = reject := by simp [next, hg, hf]
    exact absurd (by rw [hn]; rfl) h
  obtain rfl := find_word hf
  by_cases hk : c.kind = .other
  · have hn : next (.word c.word) b = if b = cr then ([], .cr .other) else reject := by
      simp [next, hg, hf, hk]
    rw [hn] at h ⊢
    split_ifs at h ⊢ with hb
    · subst hb
      exact .other hk
    · exact absurd rfl h
  · have hn : next (.word c.word) b = if b = space then ([], .beforeKey c.kind) else reject := by
      simp [next, hg, hf, hk]
    rw [hn] at h ⊢
    split_ifs at h ⊢ with hb
    · subst hb
      exact .command hk
    · exact absurd rfl h

theorem moves_afterKey {k : Kind} {b : UInt8} (h : (next (.afterKey k) b).2 ≠ .error) :
    Moves (.afterKey k) b (next (.afterKey k) b).1 (next (.afterKey k) b).2 := by
  unfold next at h ⊢
  cases k with
  | retrieval =>
    simp only [] at h ⊢
    split_ifs at h ⊢ with hk hs hc
    · exact .nextKey hk
    · subst hs
      exact .pad .retrieval
    · subst hc
      exact .lineEnd .retrieval
    · exact absurd rfl h
  | storage => exact moves_number .storage h
  | cas => exact moves_number .cas h
  | delete =>
    simp only [] at h ⊢
    split_ifs at h ⊢ with hb
    · subst hb
      exact .noreply (.inr ⟨rfl, rfl⟩)
    · exact moves_number .delete h
  | numeric => exact moves_number .numeric h
  | other => exact absurd rfl h

theorem moves_next {s : State} {b : UInt8} (h : (next s b).2 ≠ .error) :
    Moves s b (next s b).1 (next s b).2 := by
  cases s with
  | start => exact moves_command (.inl rfl) h
  | final => exact moves_command (.inr rfl) h
  | error => exact absurd rfl h
  | word w => exact moves_word h
  | afterKey k => exact moves_afterKey h
  | beforeNumber k f => exact moves_number (.next k f) h
  | zero k f => exact moves_numberEnd (.zero k f) h
  | data => exact .data
  | digits k f =>
    unfold next at h ⊢
    simp only [] at h ⊢
    split_ifs at h ⊢ with hd
    · exact .digit hd
    · exact moves_numberEnd (.digits k f) h
  | beforeKey k =>
    unfold next at h ⊢
    simp only [] at h ⊢
    split_ifs at h ⊢ with hk hs
    · exact .key hk
    · obtain ⟨rfl, rfl⟩ := hs
      exact .casSpace
    · exact absurd rfl h
  | inKey k =>
    unfold next at h ⊢
    simp only [] at h ⊢
    split_ifs at h ⊢ with hk hs hc
    · exact .keyByte hk
    · subst hs
      exact .keySpace
    · obtain ⟨rfl, hkind⟩ := hc
      exact .keyEnd hkind
    · exact absurd rfl h
  | tail k =>
    unfold next at h ⊢
    simp only [] at h ⊢
    split_ifs at h ⊢ with hn hs hc
    · subst hn
      exact .noreply (.inl rfl)
    · obtain ⟨rfl, hk⟩ := hs
      exact .pad (.tail hk)
    · obtain ⟨rfl, hk⟩ := hc
      exact .lineEnd (.tail hk)
    · exact absurd rfl h
  | noreply k n =>
    unfold next at h ⊢
    simp only [] at h ⊢
    split_ifs at h ⊢ with hl hc hs
    · exact .noreplyLetter hl
    · obtain ⟨rfl, rfl⟩ := hc
      exact .noreplyEnd
    · obtain ⟨rfl, rfl, hk⟩ := hs
      exact .noreplySpace hk
    · exact absurd rfl h
  | pad k =>
    unfold next at h ⊢
    simp only [] at h ⊢
    split_ifs at h ⊢ with hs hc
    · subst hs
      exact .pad (.pad k)
    · subst hc
      exact .lineEnd (.pad k)
    · exact absurd rfl h
  | cr k =>
    unfold next at h ⊢
    simp only [] at h ⊢
    split_ifs at h ⊢ with hb hk
    · subst hb
      exact .dataStart hk
    · subst hb
      exact .line hk
    · exact absurd rfl h
  | dataEnd k =>
    unfold next at h ⊢
    simp only [] at h ⊢
    split_ifs at h ⊢ with hb
    · subst hb
      exact .dataEnd
    · exact absurd rfl h
  | dataCr k =>
    unfold next at h ⊢
    simp only [] at h ⊢
    split_ifs at h ⊢ with hb
    · subst hb
      exact .dataLine
    · exact absurd rfl h

end Kumofs.Gate.Memtext
