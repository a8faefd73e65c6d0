import Kumofs.Lib.Count
import Kumofs.System.Source
import Mathlib.Data.List.TakeWhile

/-!
# What the allocator gives out

No two pieces that are given out overlap, nor does one overlap a `data_t`, so that every `free`
finds its chunk, and a chunk knows how many of its pieces are out. The queue of tombstones over it
is the queue of their bytes.
-/

namespace Kumofs

open Machine (Run Free)

/-- The end of what was given out. -/
def Block.stop (b : Block) : ℕ := b.data + dataSize + b.size

/-- The chunks have no memory in common. -/
def Chunk.Apart (c d : Chunk) : Prop := c.stop ≤ d.base ∨ d.stop ≤ c.base

/-- The blocks, with their `data_t`s, have no memory in common. -/
def Block.Apart (a b : Block) : Prop := a.stop ≤ b.data ∨ b.stop ≤ a.data

/-- The block lies in the part of its chunk that was given out. -/
structure Block.Inside (b : Block) (c : Chunk) : Prop where
  chunk : b.chunk = c.base
  data : c.base + chunkSize ≤ b.data
  stop : b.stop ≤ c.place

instance : Std.Symm Block.Apart := ⟨fun _ _ h => Or.symm h⟩

namespace Source

variable {cfg : SourceConfig} {s t : Source} {chunks rest : List Chunk} {live : List Block}
  {mem : Memory} {b : Block} {c d : Chunk} {size : ℕ} {given : List (ℕ × ℕ)}

/-- What holds of the chunks, in whichever list they are, and of the blocks. -/
structure Kept (chunks : List Chunk) (mem : Memory) (live : List Block) (given : List (ℕ × ℕ)) :
    Prop where
  given : given.Perm (chunks.map fun c => (c.base, c.size))
  apart : chunks.Pairwise Chunk.Apart
  fits : ∀ c ∈ chunks, c.free ≤ c.size ∧ c.stop < 2 ^ 64
  lots : ∀ c ∈ chunks, c.lots = live.countP (·.chunk = c.base)
  idle : ∀ c ∈ chunks, c.lots = 0 → c.free = c.size
  inside : ∀ b ∈ live, ∃ c ∈ chunks, b.Inside c
  header : ∀ b ∈ live, mem.read b.data dataSize = Endian.bytes dataSize b.chunk
  disjoint : live.Pairwise Block.Apart

theorem Kept.perm {chunks' : List Chunk} {live' : List Block} (hs : Kept chunks mem live given)
    (hc : chunks'.Perm chunks) (hl : live'.Perm live) : Kept chunks' mem live' given where
  given := hs.given.trans (hc.map _).symm
  apart := (hc.pairwise_iff fun h => Or.symm h).2 hs.apart
  fits c h := hs.fits c (hc.mem_iff.1 h)
  lots c h := (hs.lots c (hc.mem_iff.1 h)).trans (hl.countP_eq _).symm
  idle c h := hs.idle c (hc.mem_iff.1 h)
  inside b h := by
    obtain ⟨c, hm, hi⟩ := hs.inside b (hl.mem_iff.1 h)
    exact ⟨c, hc.mem_iff.2 hm, hi⟩
  header b h := hs.header b (hl.mem_iff.1 h)
  disjoint := (hl.pairwise_iff fun h => Or.symm h).2 hs.disjoint

/-- A block ends where its chunk does, at the latest. -/
theorem Kept.stop_le (hs : Kept chunks mem live given) (hc : c ∈ chunks) (hi : b.Inside c) :
    b.stop ≤ c.stop := by
  have := (hs.fits c hc).1
  have := hi.stop
  unfold Chunk.place at this
  unfold Chunk.stop
  omega

/-- Chunks that start at the same address are the same. -/
theorem Kept.base_ne (hs : Kept (c :: rest) mem live given) (hd : d ∈ rest) : d.base ≠ c.base := by
  intro he
  have h := (List.pairwise_cons.1 hs.apart).1 d hd
  unfold Chunk.Apart Chunk.stop chunkSize at h
  omega

/-- The rest of a chunk is free: no block that was given out reaches into it. -/
theorem Kept.apart_place (hs : Kept (c :: rest) mem live given) (hb : b ∈ live) :
    b.stop ≤ c.place ∨ c.stop ≤ b.data := by
  obtain ⟨d, hd, hi⟩ := hs.inside b hb
  obtain rfl | hd' := List.mem_cons.1 hd
  · exact .inl hi.stop
  · have hstop := hs.stop_le hd hi
    have hdata := hi.data
    have hfree := (hs.fits c List.mem_cons_self).1
    obtain h | h := (List.pairwise_cons.1 hs.apart).1 d hd'
    · right
      omega
    · left
      unfold Chunk.place
      omega

theorem Kept.take (hs : Kept (c :: rest) mem live given) (hreq : size + dataSize ≤ c.free) :
    Kept (c.take (size + dataSize) :: rest) (mem.write c.place (Endian.bytes dataSize c.base))
      (⟨c.base, c.place, size⟩ :: live) given := by
  obtain ⟨hfree, hstop⟩ := hs.fits c List.mem_cons_self
  have hplace : (c.take (size + dataSize)).place = c.place + dataSize + size := by
    unfold Chunk.take Chunk.place
    simp only []
    omega
  have hend : c.place + dataSize + size ≤ c.stop := by
    unfold Chunk.place Chunk.stop
    omega
  have happart : ∀ b ∈ live, b.stop ≤ c.place ∨ c.place + dataSize + size ≤ b.data := by
    intro b hb
    have := hs.apart_place hb
    omega
  refine ⟨hs.given, ?_, ?_, ?_, ?_, ?_, ?_, ?_⟩
  · obtain ⟨hhead, htail⟩ := List.pairwise_cons.1 hs.apart
    exact List.pairwise_cons.2 ⟨hhead, htail⟩
  · refine List.forall_mem_cons.2 ⟨⟨?_, hstop⟩, fun d hd => hs.fits d (List.mem_cons_of_mem c hd)⟩
    unfold Chunk.take
    simp only []
    omega
  · refine List.forall_mem_cons.2 ⟨?_, fun d hd => ?_⟩
    · simp [Chunk.take, hs.lots c List.mem_cons_self]
    · rw [List.countP_cons_of_neg, hs.lots d (List.mem_cons_of_mem c hd)]
      simpa using (hs.base_ne hd).symm
  · refine List.forall_mem_cons.2 ⟨nofun, fun d hd => hs.idle d (List.mem_cons_of_mem c hd)⟩
  · refine List.forall_mem_cons.2 ⟨⟨_, List.mem_cons_self, rfl, ?_, ?_⟩, fun b hb => ?_⟩
    · unfold Chunk.place Chunk.take
      simp only []
      omega
    · rw [hplace]
      exact Nat.le_refl _
    · obtain ⟨d, hd, hi⟩ := hs.inside b hb
      obtain rfl | hd := List.mem_cons.1 hd
      · refine ⟨_, List.mem_cons_self, hi.chunk, hi.data, hi.stop.trans ?_⟩
        rw [hplace]
        omega
      · exact ⟨d, List.mem_cons_of_mem _ hd, hi⟩
  · refine List.forall_mem_cons.2 ⟨?_, fun b hb => ?_⟩
    · have := Memory.read_write_self mem c.place (Endian.bytes dataSize c.base)
      rwa [Endian.length_bytes] at this
    · rw [Memory.read_write_of_disjoint, hs.header b hb]
      have := happart b hb
      rw [Endian.length_bytes]
      unfold Block.stop at this
      omega
  · exact List.pairwise_cons.2 ⟨fun b hb => Or.symm (happart b hb), hs.disjoint⟩

/-- A chunk of which nothing was given out. -/
theorem Kept.add {base : ℕ} (hs : Kept chunks mem live given)
    (hstop : base + chunkSize + size < 2 ^ 64)
    (hfresh : ∀ c ∈ chunks, base + chunkSize + size ≤ c.base ∨ c.stop ≤ base) :
    Kept (⟨base, size, 0, size⟩ :: chunks) mem live ((base, size) :: given) := by
  refine ⟨hs.given.cons _, List.pairwise_cons.2 ⟨hfresh, hs.apart⟩, ?_, ?_, ?_, fun b hb => ?_,
    hs.header, hs.disjoint⟩
  · exact List.forall_mem_cons.2 ⟨⟨Nat.le_refl _, hstop⟩, hs.fits⟩
  · refine List.forall_mem_cons.2 ⟨(List.countP_eq_zero.2 fun b hb => ?_).symm, hs.lots⟩
    obtain ⟨c, hc, hi⟩ := hs.inside b hb
    have := hfresh c hc
    have := hi.chunk
    unfold Chunk.stop chunkSize at *
    simp only [decide_eq_true_eq]
    omega
  · exact List.forall_mem_cons.2 ⟨fun _ => rfl, hs.idle⟩
  · obtain ⟨c, hc, hi⟩ := hs.inside b hb
    exact ⟨c, List.mem_cons_of_mem _ hc, hi⟩

theorem Kept.give (hs : Kept (c :: rest) mem (b :: live) given) (hb : b.chunk = c.base) :
    Kept (c.give :: rest) mem live given := by
  have hlots : c.lots = live.countP (·.chunk = c.base) + 1 := by
    rw [hs.lots c List.mem_cons_self, List.countP_cons_of_pos (by simpa using hb)]
  have hgive : c.give.lots = live.countP (·.chunk = c.base) := by
    unfold Chunk.give
    simp only []
    omega
  obtain ⟨hfree, hstop⟩ := hs.fits c List.mem_cons_self
  refine ⟨hs.given, ?_, ?_, ?_, ?_, fun a ha => ?_,
    fun a ha => hs.header a (List.mem_cons_of_mem b ha),
    (List.pairwise_cons.1 hs.disjoint).2⟩
  · obtain ⟨hhead, htail⟩ := List.pairwise_cons.1 hs.apart
    exact List.pairwise_cons.2 ⟨hhead, htail⟩
  · refine List.forall_mem_cons.2 ⟨⟨?_, hstop⟩, fun d hd => hs.fits d (List.mem_cons_of_mem c hd)⟩
    unfold Chunk.give
    simp only []
    split_ifs <;> omega
  · refine List.forall_mem_cons.2 ⟨hgive, fun d hd => ?_⟩
    rw [hs.lots d (List.mem_cons_of_mem c hd), List.countP_cons_of_neg]
    rw [hb]
    simpa using (hs.base_ne hd).symm
  · refine List.forall_mem_cons.2 ⟨fun h => ?_, fun d hd => hs.idle d (List.mem_cons_of_mem c hd)⟩
    exact if_pos h
  · obtain ⟨d, hd, hi⟩ := hs.inside a (List.mem_cons_of_mem b ha)
    obtain rfl | hd := List.mem_cons.1 hd
    · -- the chunk still has something out, so its place stays
      have hpos := Counting.countP_pos_of_mem (p := fun b => decide (b.chunk = d.base)) ha
        (by simpa using hi.chunk)
      refine ⟨_, List.mem_cons_self, hi.chunk, hi.data, hi.stop.trans ?_⟩
      unfold Chunk.place Chunk.give
      simp only []
      rw [if_neg (by omega)]
    · exact ⟨d, List.mem_cons_of_mem _ hd, hi⟩

/-- Memory that no `data_t` is in may be written. -/
theorem Kept.write {a : ℕ} {bs : Bytes} (hs : Kept chunks mem live given) (hb : b ∈ live)
    (ha : b.pointer ≤ a) (hstop : a + bs.length ≤ b.stop) :
    Kept chunks (mem.write a bs) live given where
  given := hs.given
  apart := hs.apart
  fits := hs.fits
  lots := hs.lots
  idle := hs.idle
  inside := hs.inside
  header d hd := by
    rw [Memory.read_write_of_disjoint, hs.header d hd]
    unfold Block.pointer Block.stop at *
    by_cases hbd : b = d
    · subst hbd
      omega
    · have := hs.disjoint.forall hb hd hbd
      unfold Block.Apart Block.stop at this
      omega
  disjoint := hs.disjoint

/-- What holds of the allocator. -/
structure Sound (s : Source) : Prop where
  kept : Kept (s.freeList ++ s.usedList) s.mem s.live s.given
  busy : ∀ c ∈ s.usedList, c.lots ≠ 0

/-! ## Giving out and taking back -/

/-- The blocks are those there were and one more, which starts where the caller is told, and the
bytes of the others are as they were. -/
structure Gave (s t : Source) (size x : ℕ) (b : Block) : Prop where
  live : t.live = b :: s.live
  pointer : b.pointer = x
  size : b.size = size
  mem : ∀ d ∈ s.live, t.mem.read d.pointer d.size = s.mem.read d.pointer d.size

theorem Kept.gave (hs : Kept (c :: rest) s.mem s.live given)
    (hmem : t.mem = (s.place c size).mem) (hlive : t.live = (s.place c size).live) :
    Gave s t size (c.place + dataSize) ⟨c.base, c.place, size⟩ := by
  refine ⟨hlive, rfl, rfl, fun d hd => ?_⟩
  rw [hmem]
  refine Memory.read_write_of_disjoint ?_
  have hle := (hs.fits c List.mem_cons_self).1
  have hapart := hs.apart_place hd
  rw [Endian.length_bytes]
  unfold Block.pointer
  unfold Chunk.place Chunk.stop Block.stop at *
  omega

/-- The first element that a search stops at. -/
theorem of_dropWhile {p : Chunk → Bool} {l : List Chunk} (h : l.dropWhile p = c :: rest) :
    l = l.takeWhile p ++ c :: rest ∧ p c = false := by
  refine ⟨by rw [← h, List.takeWhile_append_dropWhile], ?_⟩
  have := List.head_dropWhile_not p (l := l) (by simp [h])
  simpa [h] using this

theorem find_spec {base : ℕ} {l front : List Chunk} (h : find base l = some (front, c, rest)) :
    l = front ++ c :: rest ∧ c.base = base := by
  unfold find at h
  split at h
  · cases h
  · rename_i hdrop
    cases h
    obtain ⟨hl, hc⟩ := of_dropWhile hdrop
    exact ⟨hl, by simpa using hc⟩

theorem find_none {base : ℕ} {l : List Chunk} (h : find base l = none) :
    ∀ c ∈ l, c.base ≠ base := by
  unfold find at h
  split at h
  · rename_i hdrop
    simpa [List.dropWhile_eq_nil_iff] using hdrop
  · cases h

theorem perm_second {l front : List Chunk} :
    (l ++ (front ++ c :: rest)).Perm (c :: (l ++ (front ++ rest))) := by
  rw [← List.append_assoc, ← List.append_assoc]
  exact List.perm_middle

theorem newChunkSize_le (cfg : SourceConfig) (req : ℕ) : req ≤ newChunkSize cfg req := by
  unfold newChunkSize
  split_ifs <;> omega

/-- A chunk that something was given out of is where it is put. -/
theorem Sound.expandFree {base : ℕ} (hs : Sound s) (hf : s.Fresh cfg size base) :
    Sound (s.expandFree cfg size base).1 ∧ ∃ b, Gave s (s.expandFree cfg size base).1 size
      (s.expandFree cfg size base).2 b := by
  have hadd := hs.kept.add hf.1 hf.2
  have hreq := newChunkSize_le cfg (size + dataSize)
  have htake := hadd.take hreq
  unfold Source.expandFree
  simp only []
  split_ifs with hfull
  · refine ⟨⟨htake.perm List.perm_middle (.refl _), ?_⟩, _, hadd.gave rfl rfl⟩
    exact List.forall_mem_cons.2 ⟨nofun, hs.busy⟩
  · exact ⟨⟨htake, hs.busy⟩, _, hadd.gave rfl rfl⟩

theorem Sound.malloc {base : Option ℕ} {x : ℕ} (hs : Sound s)
    (hf : ∀ b ∈ base, s.Fresh cfg size b) (h : s.malloc cfg size base = some (t, x)) :
    Sound t ∧ ∃ b, Gave s t size x b := by
  unfold Source.malloc at h
  simp only [] at h
  split at h
  · obtain ⟨b, hb, he⟩ := Option.map_eq_some_iff.1 h
    have hexp := hs.expandFree (hf b hb)
    rw [he] at hexp
    exact hexp
  · rename_i f rest hdrop
    obtain ⟨hlist, hreq⟩ := of_dropWhile hdrop
    have hreq : size + dataSize ≤ f.free := by simpa using hreq
    have hkept := hs.kept
    generalize s.freeList.takeWhile _ = front at *
    rw [hlist, List.append_assoc, List.cons_append] at hkept
    have hmid := hkept.perm List.perm_middle.symm (.refl _)
    have htake := hmid.take hreq
    cases h
    split_ifs with hfull
    · refine ⟨⟨htake.perm ?_ (.refl _), ?_⟩, _, hmid.gave rfl rfl⟩
      · rw [← List.append_assoc front]
        exact List.perm_middle
      · exact List.forall_mem_cons.2 ⟨nofun, hs.busy⟩
    · refine ⟨⟨htake.perm ?_ (.refl _), hs.busy⟩, _, hmid.gave rfl rfl⟩
      rw [List.append_assoc, List.cons_append]
      exact List.perm_middle

theorem eraseP_perm (hs : Kept chunks mem live given) (hb : b ∈ live) :
    (b :: live.eraseP (·.data = b.data)).Perm live := by
  obtain ⟨a, l, r, hno, ha, hl, he⟩ :=
    List.exists_of_eraseP (p := fun d : Block => d.data = b.data) hb (by simp)
  have hab : a = b := by
    by_contra hne
    have hma : a ∈ live := hl ▸ List.mem_append_right l List.mem_cons_self
    have := hs.disjoint.forall hma hb hne
    simp only [decide_eq_true_eq] at ha
    unfold Block.Apart Block.stop dataSize at this
    omega
  rw [he, hl, hab]
  exact List.perm_middle.symm

/-- A piece that comes back is taken off the number of its chunk. -/
theorem Sound.free (hs : Sound s) (hb : b ∈ s.live) :
    ∃ t, s.free b.pointer = some t ∧ Sound t ∧ (b :: t.live).Perm s.live ∧ t.mem = s.mem := by
  have hperm := eraseP_perm hs.kept hb
  have hdata : b.pointer - dataSize = b.data := Nat.add_sub_cancel _ _
  obtain ⟨c, hc, hi⟩ := hs.kept.inside b hb
  have hbase : Endian.value (s.mem.read b.data dataSize) = c.base := by
    rw [hs.kept.header b hb, Endian.value_bytes, hi.chunk]
    refine Nat.mod_eq_of_lt (lt_of_le_of_lt ?_ (hs.kept.fits c hc).2)
    unfold Chunk.stop
    omega
  unfold Source.free
  simp only [hdata, hbase]
  cases hfree : find c.base s.freeList with
  | some r =>
    obtain ⟨front, c', rest⟩ := r
    obtain ⟨hlist, hbase'⟩ := find_spec hfree
    have hkept := hs.kept
    rw [hlist, List.append_assoc, List.cons_append] at hkept
    have hmid := (hkept.perm List.perm_middle.symm hperm).give (hi.chunk.trans hbase'.symm)
    simp only []
    refine ⟨_, rfl, ?_⟩
    split_ifs with hzero
    · refine ⟨⟨?_, hs.busy⟩, hperm, rfl⟩
      rw [List.cons_append, List.append_assoc]
      exact hmid
    · refine ⟨⟨?_, hs.busy⟩, hperm, rfl⟩
      rw [List.append_assoc, List.cons_append]
      exact hmid.perm List.perm_middle (.refl _)
  | none =>
    have hused : find c.base s.usedList ≠ none := by
      intro hnone
      obtain hc | hc := List.mem_append.1 hc
      · exact find_none hfree c hc rfl
      · exact find_none hnone c hc rfl
    obtain ⟨⟨front, c', rest⟩, hfound⟩ := Option.ne_none_iff_exists'.1 hused
    obtain ⟨hlist, hbase'⟩ := find_spec hfound
    have hkept := hs.kept
    have hbusy := hs.busy
    rw [hlist] at hkept hbusy
    have hmid := (hkept.perm perm_second.symm hperm).give (hi.chunk.trans hbase'.symm)
    rw [hfound]
    simp only [Option.map_some]
    refine ⟨_, rfl, ?_⟩
    split_ifs with hzero
    · refine ⟨⟨hmid, fun d hd => hbusy d ?_⟩, hperm, rfl⟩
      obtain hd | hd := List.mem_append.1 hd
      · exact List.mem_append_left _ hd
      · exact List.mem_append_right _ (List.mem_cons_of_mem _ hd)
    · refine ⟨⟨hmid.perm perm_second (.refl _), fun d hd => ?_⟩, hperm, rfl⟩
      obtain hd | hd := List.mem_append.1 hd
      · exact hbusy d (List.mem_append_left _ hd)
      · obtain rfl | hd := List.mem_cons.1 hd
        · exact hzero
        · exact hbusy d (List.mem_append_right _ (List.mem_cons_of_mem _ hd))

theorem Sound.write {a : ℕ} {bs : Bytes} (hs : Sound s) (hb : b ∈ s.live) (ha : b.pointer ≤ a)
    (hstop : a + bs.length ≤ b.stop) : Sound { s with mem := s.mem.write a bs } :=
  ⟨hs.kept.write hb ha hstop, hs.busy⟩

/-- What is written to a block does not change another one. -/
theorem Sound.read_write {a : ℕ} {bs : Bytes} {d : Block} (hs : Sound s) (hb : b ∈ s.live)
    (ha : b.pointer ≤ a) (hstop : a + bs.length ≤ b.stop) (hd : d ∈ s.live) (hne : b ≠ d) :
    (s.mem.write a bs).read d.pointer d.size = s.mem.read d.pointer d.size := by
  have := hs.kept.disjoint.forall hb hd hne
  refine Memory.read_write_of_disjoint ?_
  unfold Block.Apart Block.stop Block.pointer at *
  omega

theorem sound_init (mem : Memory) : Sound (init mem) where
  kept := ⟨.nil, .nil, nofun, nofun, nofun, nofun, nofun, .nil⟩
  busy := nofun

variable {a : Act} {as : List Act}

theorem Sound.step (hs : Sound s) (h : s.step cfg a = some t) : Sound t := by
  cases a with
  | malloc size base =>
    simp only [Source.step] at h
    split_ifs at h with hf
    cases hm : s.malloc cfg size base with
    | none =>
      simp only [hm] at h
      cases h
      exact hs
    | some r =>
      simp only [hm] at h
      cases h
      exact (hs.malloc hf hm).1
  | free x =>
    simp only [Source.step] at h
    split_ifs at h with hb
    obtain ⟨b, hb, rfl⟩ := hb
    obtain ⟨u, hu, hsound, -⟩ := hs.free hb
    rw [hu] at h
    cases h
    exact hsound
  | write x off bs =>
    simp only [Source.step] at h
    split_ifs at h with hb
    obtain ⟨b, hb, rfl, hoff⟩ := hb
    cases h
    refine hs.write hb (Nat.le_add_right _ _) ?_
    unfold Block.pointer Block.stop
    omega

theorem run_sound {mem : Memory} (h : Run (step cfg) Free (init mem) as s) : Sound s :=
  h.inv (fun _ _ _ hs _ hst => hs.step hst) (sound_init mem)

/-- Two pieces of a chunk, and one too large for it. -/
def cut : List Act := [.malloc 3 (some 1000), .malloc 30 none, .malloc 200 (some 2000)]

theorem cut_run : ∃ s, Run (step ⟨8, 2⟩) Free (init fun _ => 0) cut s ∧
    s.live = [⟨2000, 2040, 200⟩, ⟨1000, 1051, 30⟩, ⟨1000, 1040, 3⟩] ∧ s.freeList = [] ∧
      s.usedList = [⟨2000, 0, 1, 208⟩, ⟨1000, 47, 2, 96⟩] :=
  ⟨_, Machine.exec_run rfl, rfl, rfl, rfl⟩

/-- What is out never overlaps, nor do the chunks, and it can always be taken back. -/
theorem live_apart {mem : Memory} (h : Run (step cfg) Free (init mem) as s) :
    (s.freeList ++ s.usedList).Pairwise Chunk.Apart ∧
    s.live.Pairwise Block.Apart ∧ ∀ b ∈ s.live,
      (∃ c ∈ s.freeList ++ s.usedList, b.Inside c) ∧
        ∃ t, s.free b.pointer = some t ∧ (b :: t.live).Perm s.live := by
  have hs := run_sound h
  refine ⟨hs.kept.apart, hs.kept.disjoint, fun b hb => ⟨hs.kept.inside b hb, ?_⟩⟩
  obtain ⟨t, ht, -, hperm, -⟩ := hs.free hb
  exact ⟨t, ht, hperm⟩

theorem live_apart_cut : ∃ s, Run (step ⟨8, 2⟩) Free (init fun _ => 0) cut s ∧
    (⟨1000, 1040, 3⟩ : Block) ∈ s.live ∧ ∃ t, s.free 1048 = some t := by
  obtain ⟨s, hs, hlive, -⟩ := cut_run
  have hb : (⟨1000, 1040, 3⟩ : Block) ∈ s.live := by rw [hlive]; decide
  obtain ⟨t, ht, -⟩ := ((live_apart hs).2.2 _ hb).2
  exact ⟨s, hs, hb, t, ht⟩

/-- Nothing leaks: where nothing is out of what `std::malloc` has returned, `malloc` finds it, all
of it. -/
theorem free_of_idle {mem : Memory} {base size : ℕ} (h : Run (step cfg) Free (init mem) as s)
    (hg : (base, size) ∈ s.given) (hidle : ∀ b ∈ s.live, b.chunk ≠ base) :
    (⟨base, size, 0, size⟩ : Chunk) ∈ s.freeList := by
  have hs := run_sound h
  obtain ⟨c, hc, he⟩ := List.mem_map.1 (hs.kept.given.mem_iff.1 hg)
  obtain ⟨hbase, hsize⟩ := Prod.mk.inj he
  have hlots : c.lots = 0 := by
    rw [hs.kept.lots c hc, List.countP_eq_zero, hbase]
    simpa using hidle
  have hfree : c.free = c.size := hs.kept.idle c hc hlots
  obtain rfl : c = ⟨base, size, 0, size⟩ := by
    cases c
    simp_all
  obtain hc | hc := List.mem_append.1 hc
  · exact hc
  · exact absurd hlots (hs.busy _ hc)

/-- Both pieces of a chunk come back. -/
def returned : List Act := [.malloc 3 (some 1000), .malloc 30 none, .free 1048, .free 1059]

theorem free_of_idle_returned : ∃ s, Run (step ⟨8, 2⟩) Free (init fun _ => 0) returned s ∧
    (1000, 96) ∈ s.given ∧ (⟨1000, 96, 0, 96⟩ : Chunk) ∈ s.freeList := by
  have hrun : ∃ s, Run (step ⟨8, 2⟩) Free (init fun _ => 0) returned s ∧ s.live = [] ∧
      s.given = [(1000, 96)] := ⟨_, Machine.exec_run rfl, rfl, rfl⟩
  obtain ⟨s, hs, hlive, hgiven⟩ := hrun
  have hg : (1000, 96) ∈ s.given := hgiven ▸ List.mem_singleton_self _
  exact ⟨s, hs, hg, free_of_idle hs hg (by simp [hlive])⟩

/-- Whoever has the block does not free it nor write to it. -/
def Others (b : Block) (_ : Source) : Act → Prop
  | .malloc _ _ => True
  | .free x | .write x _ _ => x ≠ b.pointer

theorem Sound.others (hs : Sound s) (hb : b ∈ s.live) (ha : Others b s a)
    (h : s.step cfg a = some t) :
    b ∈ t.live ∧ t.mem.read b.pointer b.size = s.mem.read b.pointer b.size := by
  cases a with
  | malloc size base =>
    simp only [Source.step] at h
    split_ifs at h with hf
    cases hm : s.malloc cfg size base with
    | none =>
      simp only [hm] at h
      cases h
      exact ⟨hb, rfl⟩
    | some r =>
      simp only [hm] at h
      cases h
      obtain ⟨-, d, hgave⟩ := hs.malloc hf hm
      exact ⟨hgave.live ▸ List.mem_cons_of_mem d hb, hgave.mem b hb⟩
  | free x =>
    simp only [Source.step] at h
    split_ifs at h with hd
    obtain ⟨d, hd, rfl⟩ := hd
    obtain ⟨u, hu, -, hperm, hmem⟩ := hs.free hd
    rw [hu] at h
    cases h
    refine ⟨?_, by rw [hmem]⟩
    obtain rfl | hb := List.mem_cons.1 (hperm.mem_iff.2 hb)
    · exact absurd rfl ha
    · exact hb
  | write x off bs =>
    simp only [Source.step] at h
    split_ifs at h with hd
    obtain ⟨d, hd, rfl, hoff⟩ := hd
    cases h
    refine ⟨hb, hs.read_write hd (Nat.le_add_right _ _) ?_ hb fun he => ha (he ▸ rfl)⟩
    unfold Block.pointer Block.stop
    omega

/-- What somebody has written to a block stays there, whatever the others allocate, write and
free. -/
theorem read_of_others {mem : Memory} {bs : List Act} (h : Run (step cfg) Free (init mem) as s)
    (hb : b ∈ s.live) (h' : Run (step cfg) (Others b) s bs t) :
    b ∈ t.live ∧ t.mem.read b.pointer b.size = s.mem.read b.pointer b.size := by
  refine (h'.inv (I := fun u => Sound u ∧ b ∈ u.live ∧
    u.mem.read b.pointer b.size = s.mem.read b.pointer b.size)
    (fun u a v hu ha hst => ?_) ⟨run_sound h, hb, rfl⟩).2
  obtain ⟨hsound, hlive, hread⟩ := hu
  obtain ⟨hlive', hread'⟩ := hsound.others hlive ha hst
  exact ⟨hsound.step hst, hlive', hread'.trans hread⟩

/-- Three bytes are written, and then the other pieces are written to and freed. -/
theorem cut_others : ∃ s t,
    Run (step ⟨8, 2⟩) Free (init fun _ => 0) (cut ++ [.write 1048 0 [1, 2, 3]]) s ∧
    (⟨1000, 1040, 3⟩ : Block) ∈ s.live ∧ Run (step ⟨8, 2⟩) (Others ⟨1000, 1040, 3⟩) s
      [.write 1059 0 [9, 9], .free 1059, .malloc 5 (some 3000)] t ∧
      s.mem.read 1048 3 = [1, 2, 3] := by
  refine ⟨_, _, Machine.exec_run rfl, ?_, .cons ?_ rfl (.cons ?_ rfl (.cons trivial rfl (.nil _))),
    rfl⟩
  · exact List.mem_cons_of_mem _ (List.mem_cons_of_mem _ List.mem_cons_self)
  · exact nofun
  · exact nofun

theorem read_of_others_cut : ∃ s t,
    Run (step ⟨8, 2⟩) Free (init fun _ => 0) (cut ++ [.write 1048 0 [1, 2, 3]]) s ∧
    Run (step ⟨8, 2⟩) (Others ⟨1000, 1040, 3⟩) s
      [.write 1059 0 [9, 9], .free 1059, .malloc 5 (some 3000)] t ∧
      t.mem.read 1048 3 = [1, 2, 3] := by
  obtain ⟨s, t, hs, hb, ht, hread⟩ := cut_others
  exact ⟨s, t, hs, ht, (read_of_others hs hb ht).2.trans hread⟩

end Source

namespace SourceQueue

open Source (Sound)

variable {s t : SourceQueue × BufferQueue} {a : Act} {as : List Act} {q : SourceQueue}

/-- The bytes of the entries. -/
def contents (q : SourceQueue) : List Bytes := q.queue.map fun e => q.source.mem.read e.1 e.2

/-- The queue in memory is the queue that is meant. -/
structure Holds (s : SourceQueue × BufferQueue) : Prop where
  sound : Sound s.1.source
  live : (s.1.source.live.map fun b => (b.pointer, b.size)).Perm s.1.queue
  contents : s.1.contents = s.2.queue.map BufferQueue.Entry.bytes
  totalSize : s.1.totalSize = s.2.totalSize
  sizes : ∀ e ∈ s.2.queue, e.bytes.length = e.size

theorem contents_congr (mem : Memory)
    (hlive : (q.source.live.map fun b => (b.pointer, b.size)).Perm q.queue)
    (hmem : ∀ b ∈ q.source.live,
      mem.read b.pointer b.size = q.source.mem.read b.pointer b.size) :
    (q.queue.map fun e => mem.read e.1 e.2) = q.contents := by
  refine List.map_congr_left fun e he => ?_
  obtain ⟨b, hb, rfl⟩ := List.mem_map.1 (hlive.mem_iff.2 he)
  exact hmem b hb

theorem length_bytes (rawKey : Bytes) (ct : ClockTime) :
    (clockKey rawKey ct).bytes.length = (clockKey rawKey ct).size := by
  simp [clockKey, BufferQueue.Entry.bytes, Nat.add_comm]

theorem wrap_bytes (e : BufferQueue.Entry) : BufferQueue.wrap e.bytes = e.data := by
  unfold BufferQueue.wrap BufferQueue.Entry.bytes
  rw [List.take_left' (Endian.length_bytes _ _), List.drop_left' (Endian.length_bytes _ _),
    Endian.value_bytes_toNat, UInt64.ofNat_toNat]

/-- The memory that `push` has got takes the bytes, and nothing else changes. -/
theorem Holds.fill {source : Source} {buf : Bytes} {data : ℕ} {b : Block} (hs : Holds s)
    (hsound : Sound source) (hgave : Source.Gave s.1.source source buf.length data b) :
    Sound { source with mem := source.mem.write data buf } ∧
      (source.mem.write data buf).read data buf.length = buf ∧
      (s.1.queue.map fun e => (source.mem.write data buf).read e.1 e.2) = s.1.contents := by
  have hb : b ∈ source.live := hgave.live ▸ List.mem_cons_self
  have hstop : data + buf.length ≤ b.stop := by
    rw [← hgave.pointer, ← hgave.size]
    exact Nat.le_refl _
  have hnodup := hsound.kept.disjoint
  rw [hgave.live, List.pairwise_cons] at hnodup
  refine ⟨hsound.write hb hgave.pointer.le hstop, Memory.read_write_self _ _ _, ?_⟩
  refine contents_congr (source.mem.write data buf) hs.live fun d hd => ?_
  have hne : b ≠ d := by
    rintro rfl
    have := hnodup.1 b hd
    unfold Block.Apart Block.stop dataSize at this
    omega
  have hd' : d ∈ source.live := hgave.live ▸ List.mem_cons_of_mem b hd
  exact (hsound.read_write hb hgave.pointer.le hstop hd' hne).trans (hgave.mem d hd)

theorem Holds.push {rawKey : Bytes} {ct : ClockTime} {base : Option ℕ} (ok : Bool)
    (hs : Holds s) (hf : ∀ b ∈ base, s.1.source.Fresh config (clockKey rawKey ct).bytes.length b) :
    ∃ r, s.1.push (clockKey rawKey ct).bytes base ok = some r ∧
      Holds (r.1, if r.2 then s.2.push (clockKey rawKey ct) else s.2) := by
  unfold SourceQueue.push
  cases hm : s.1.source.malloc config (clockKey rawKey ct).bytes.length base with
  | none => exact ⟨_, rfl, hs⟩
  | some r =>
    obtain ⟨source, data⟩ := r
    obtain ⟨hsound, b, hgave⟩ := hs.sound.malloc hf hm
    obtain ⟨hfilled, hread, hsame⟩ := hs.fill hsound hgave
    simp only []
    cases ok with
    | true =>
      refine ⟨_, rfl, hfilled, ?_, ?_, ?_, ?_⟩
      · show (source.live.map fun b => (b.pointer, b.size)).Perm _
        rw [hgave.live, List.map_cons, hgave.pointer, hgave.size]
        exact (hs.live.cons _).trans (List.perm_append_singleton _ _).symm
      · unfold SourceQueue.contents
        rw [List.map_append, hsame, hs.contents]
        simp only [List.map_cons, List.map_nil, hread]
        simp [BufferQueue.push]
      · simp [BufferQueue.push, hs.totalSize, length_bytes]
      · intro e he
        obtain he | he := List.mem_append.1 he
        · exact hs.sizes e he
        · rw [List.mem_singleton.1 he, length_bytes]
    | false =>
      obtain ⟨u, hu, hsound', hperm, hmem⟩ := hfilled.free (b := b)
        (by show b ∈ source.live; rw [hgave.live]; exact List.mem_cons_self)
      rw [hgave.pointer] at hu
      refine ⟨_, by rw [if_neg (by simp), hu]; rfl, hsound', ?_, ?_, hs.totalSize,
        hs.sizes⟩
      · have hperm : (b :: u.live).Perm (b :: s.1.source.live) := hgave.live ▸ hperm
        exact (hperm.cons_inv.map _).trans hs.live
      · show (s.1.queue.map fun e => u.mem.read e.1 e.2) = _
        rw [hmem]
        exact hsame.trans hs.contents

theorem Holds.pop (hs : Holds s) (hne : s.2.front ≠ none) :
    ∃ q, s.1.pop = some q ∧ Holds (q, s.2.pop) := by
  obtain ⟨hsound, hlive, hcontents, htotal, hsizes⟩ := hs
  unfold SourceQueue.contents at hcontents
  unfold SourceQueue.pop
  cases hbq : s.2.queue with
  | nil =>
    refine absurd ?_ hne
    unfold BufferQueue.front
    rw [hbq]
    rfl
  | cons e es =>
    cases hq : s.1.queue with
    | nil => simp [hq, hbq] at hcontents
    | cons x xs =>
      rw [hq, hbq, List.map_cons, List.map_cons, List.cons.injEq] at hcontents
      rw [hq] at hlive
      obtain ⟨b, hb, hbx⟩ := List.mem_map.1 (hlive.mem_iff.2 List.mem_cons_self)
      obtain ⟨u, hu, hsound', hperm, hmem⟩ := hsound.free hb
      have hx : x.1 = b.pointer := by rw [← hbx]
      refine ⟨_, by simp only [hx, hu, Option.map_some]; rfl, hsound', ?_, ?_, ?_, ?_⟩
      · have := (hperm.map fun b => (b.pointer, b.size)).trans hlive
        rw [List.map_cons, hbx] at this
        exact this.cons_inv
      · unfold SourceQueue.contents BufferQueue.pop
        rw [hmem, hbq]
        exact hcontents.2
      · have hsize : x.2 = e.size := by
          rw [← hsizes e (hbq ▸ List.mem_cons_self), ← hcontents.1, Memory.length_read]
        unfold BufferQueue.pop
        rw [hbq, hsize, htotal]
      · intro d hd
        refine hsizes d ?_
        unfold BufferQueue.pop at hd
        rw [hbq] at hd ⊢
        exact List.mem_cons_of_mem e hd

theorem Holds.step (hs : Holds s) (h : step s a = some t) : Holds t := by
  cases a with
  | push rawKey ct base ok =>
    simp only [SourceQueue.step] at h
    split_ifs at h with hf
    obtain ⟨r, hr, hholds⟩ := hs.push ok hf
    rw [hr] at h
    cases h
    exact hholds
  | pop =>
    simp only [SourceQueue.step] at h
    split_ifs at h with hne
    obtain ⟨q, hq, hholds⟩ := hs.pop hne
    rw [hq] at h
    cases h
    exact hholds

theorem run_holds {mem : Memory} (h : Run step Free (init mem, .init) as s) : Holds s :=
  h.inv (fun _ _ _ hs _ hst => hs.step hst)
    ⟨Source.sound_init mem, .refl _, rfl, rfl, nofun⟩

theorem Holds.front (hs : Holds s) :
    s.1.front.map BufferQueue.wrap = s.2.front.map (·.data) := by
  have hhead : s.1.front = s.2.front.map BufferQueue.Entry.bytes := by
    unfold SourceQueue.front BufferQueue.front
    rw [← List.head?_map, ← List.head?_map, ← hs.contents, SourceQueue.contents]
  rw [hhead, Option.map_map]
  exact congrFun (congrArg Option.map (funext wrap_bytes)) _

/-- What `remove` reads at the front of the queue is the tombstone that was pushed first of those
that are left, whatever memory the queue was given, and every tombstone can be popped. -/
theorem front_wrap {mem : Memory} (h : Run step Free (init mem, .init) as s) :
    s.1.front.map BufferQueue.wrap = s.2.front.map (·.data) ∧ s.1.totalSize = s.2.totalSize ∧
      (s.2.front ≠ none → ∃ q, s.1.pop = some q ∧
        q.front.map BufferQueue.wrap = s.2.pop.front.map (·.data)) := by
  have hs := run_holds h
  refine ⟨hs.front, hs.totalSize, fun hne => ?_⟩
  obtain ⟨q, hq, hholds⟩ := hs.pop hne
  exact ⟨q, hq, hholds.front⟩

/-- Two tombstones are pushed, a third one cannot be, and the first is popped. -/
def tombstones : List Act :=
  [.push [7] ⟨5⟩ (some 1000) true, .push [8] ⟨6⟩ none true, .push [9] ⟨7⟩ none false, .pop]

theorem tombstones_run : ∃ s, Run step Free (init fun _ => 0, .init) tombstones s ∧
    s.2.queue = [clockKey [8] ⟨6⟩] :=
  ⟨_, Machine.exec_run rfl, rfl⟩

theorem front_wrap_tombstones : ∃ s, Run step Free (init fun _ => 0, .init) tombstones s ∧
    s.1.front.map BufferQueue.wrap = some (⟨6⟩, [8]) ∧ s.1.totalSize = s.2.totalSize := by
  obtain ⟨s, hs, hq⟩ := tombstones_run
  obtain ⟨hfront, htotal, -⟩ := front_wrap hs
  refine ⟨s, hs, hfront.trans ?_, htotal⟩
  unfold BufferQueue.front
  rw [hq]
  rfl

end SourceQueue

end Kumofs
