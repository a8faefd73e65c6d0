import Kumofs.Lib.Count
import Kumofs.Wavy.Core
import Mathlib.Algebra.Order.BigOperators.Group.List
import Mathlib.Algebra.Order.Ring.Nat

/-!
# Tasks and events

Every task is started once, in the order of the `submit`s, and every event handed to a handler once,
in the order they were reported. While a thread waits for events nobody reads the backlog, and no fd
is handled by two threads.
-/

namespace Kumofs.Wavy

open Machine (Run Free)

/-- The thread has gone for events. -/
def Thread.isPoller : Thread → Bool
  | .polling | .polled _ => true
  | .entering | .waiting | .running _ | .handling _ _ | .ended => false

/-- The thread has got events that nobody else knows of. -/
def Thread.isPolled : Thread → Bool
  | .polled _ => true
  | .entering | .waiting | .polling | .running _ | .handling _ _ | .ended => false

/-- The thread is in `read_event` of the fd. -/
def Thread.handles (fd : ℕ) : Thread → Bool
  | .handling fd' _ => fd' = fd
  | .entering | .waiting | .polling | .polled _ | .running _ | .ended => false

/-- The thread is in `m_cond.wait`. -/
def Thread.waits : Thread → Bool
  | .waiting => true
  | .entering | .polling | .polled _ | .running _ | .handling _ _ | .ended => false

/-- How far a thread is from its end. -/
def Thread.left : Thread → ℕ
  | .ended => 0
  | .polling => 1
  | .entering => 2
  | .waiting | .polled _ | .running _ | .handling _ _ => 3

/-- The thread is going to look at the queue, without having to be woken or to get an event. -/
def Thread.awake : Thread → Bool
  | .entering | .running _ | .handling _ _ => true
  | .waiting | .polling | .polled _ | .ended => false

namespace Core

variable {s t u : Core} {a : Act} {as : List Act} {k wake : ℕ} {x y : Thread}
  {p : Thread → Bool}

/-! ## What a step does -/

@[simp] theorem setThread_threads (s : Core) (k : ℕ) (t : Thread) :
    (s.setThread k t).threads = s.threads.set k t := rfl

/-- A thread that waited, if any did, does not any more. -/
inductive Woken (s : Core) : Core → Prop
  | same : Woken s s
  | woke {j : ℕ} : s.threads[j]? = some .waiting → Woken s (s.setThread j .entering)

theorem woken_of_signal (h : s.signal wake = some u) : Woken s u := by
  unfold signal at h
  split_ifs at h with _ hj
  · cases h
    exact .woke hj
  · cases h
    exact .same

/-- Where another thread is stays the same. -/
theorem Woken.getElem (h : Woken s u) (hk : s.threads[k]? = some x) (hx : x ≠ .waiting) :
    u.threads[k]? = some x := by
  cases h with
  | same => exact hk
  | @woke j hj =>
    have hne : j ≠ k := by
      rintro rfl
      rw [hj] at hk
      exact hx (Option.some.inj hk).symm
    rw [setThread_threads, List.getElem?_set_ne hne]
    exact hk

/-- The steps, those that wake a thread as what they do after that. -/
inductive Moves (s : Core) : Act → Core → Prop
  | submit {u : Core} {wake : ℕ} : s.signal wake = some u → Moves s (.submit wake)
      { u with taskQueue := u.taskQueue ++ [u.submitted], submitted := u.submitted + 1 }
  | add {fd newh : ℕ} {ok : Bool} : s.state fd = none → Moves s (.add fd newh ok) (s.add fd newh ok)
  | addThread : Moves s .addThread { s with threads := s.threads ++ [.entering] }
  | endAll : Moves s .endAll { s with endFlag := true }.broadcast
  | leave {k wake : ℕ} : s.threads[k]? = some .entering → s.endFlag = true →
      Moves s (.enter k wake) (s.setThread k .ended)
  | wait {k wake : ℕ} : s.threads[k]? = some .entering → s.pollable = false → s.endFlag = false →
      s.taskQueue = [] → Moves s (.enter k wake) (s.setThread k .waiting)
  | start {u : Core} {k wake task : ℕ} {rest : List ℕ} :
      (rest = [] ∧ u = s ∨ s.signal wake = some u) → u.threads[k]? = some .entering →
      u.endFlag = false → (taskQueueLimit < u.taskQueue.length ∨ u.pollable = false) →
      u.taskQueue = task :: rest →
      Moves s (.enter k wake) ({ u with
        taskQueue := rest
        started := u.started ++ [task] }.setThread k (.running task))
  | startPolling {k wake : ℕ} : s.threads[k]? = some .entering →
      s.taskQueue.length ≤ taskQueueLimit → s.pollable = true → s.num = s.off →
      Moves s (.enter k wake) { s.setThread k .polling with pollable := false }
  | take {k wake fd : ℕ} : s.threads[k]? = some .entering → s.taskQueue.length ≤ taskQueueLimit →
      s.pollable = true → s.num ≠ s.off → s.backlog[s.off]? = some fd →
      Moves s (.enter k wake)
        { s.setThread k (.handling fd (s.state fd)) with
          off := s.off + 1, handed := s.handed ++ [fd] }
  | wake {k : ℕ} : s.threads[k]? = some .waiting → Moves s (.wake k) (s.setThread k .entering)
  | poll {k : ℕ} {ready : List ℕ} : s.threads[k]? = some .polling → s.Ready ready →
      Moves s (.poll k ready) (s.poll k ready)
  | pollEnd {k : ℕ} : s.threads[k]? = some .polling → s.endFlag = true →
      Moves s (.pollEnd k) (s.setThread k .ended)
  | relock {u : Core} {k num fd wake : ℕ} : s.signal wake = some u →
      u.threads[k]? = some (.polled num) → u.backlog[0]? = some fd →
      Moves s (.relock k wake) { u.setThread k (.handling fd (u.state fd)) with
        off := 1
        num := num
        pollable := true
        handed := u.handed ++ [fd] }
  | finish {k task : ℕ} : s.threads[k]? = some (.running task) →
      Moves s (.finish k) (s.setThread k .entering)
  | handled {k fd : ℕ} {handler : Option ℕ} {ok : Bool} :
      s.threads[k]? = some (.handling fd handler) →
      Moves s (.handled k ok) ((s.shotReactivate fd ok).setThread k .entering)
  | thrown {k fd : ℕ} {handler : Option ℕ} : s.threads[k]? = some (.handling fd handler) →
      Moves s (.thrown k) ((s.shotRemove fd).setThread k .entering)

/-- `signal` reads and changes only the threads. -/
theorem signal_eq {s' : Core} (hs : s'.threads = s.threads) (h : s'.signal wake = some t) :
    ∃ u, s.signal wake = some u ∧ t = { s' with threads := u.threads } := by
  unfold signal at h ⊢
  rw [hs] at h
  split_ifs at h ⊢ with hw hj
  · cases h
    exact ⟨_, rfl, by simp [setThread, hs]⟩
  · cases h
    exact ⟨_, rfl, by rw [← hs]⟩

theorem signal_fields (h : s.signal wake = some u) : u = { s with threads := u.threads } := by
  obtain ⟨v, hv, rfl⟩ := signal_eq rfl h
  rfl

theorem enter_moves (hk : s.threads[k]? = some .entering) (h : s.enter k wake = some t) :
    Moves s (.enter k wake) t := by
  unfold enter at h
  split_ifs at h with hloop hend hnum
  · cases h
    exact .leave hk hend
  · have hend : s.endFlag = false := by simpa using hend
    split at h
    · rename_i hq
      cases h
      refine .wait hk (hloop.resolve_left ?_) hend hq
      simp [hq]
    · rename_i task rest hq
      simp only [] at h
      obtain ⟨v, hv, rfl⟩ := Option.map_eq_some_iff.1 h
      split_ifs at hv with hrest
      · cases hv
        exact .start (u := s) (.inl ⟨hrest, rfl⟩) hk hend hloop hq
      · obtain ⟨u, hu, rfl⟩ := signal_eq (s := s) (by rfl) hv
        have hfields := signal_fields hu
        have hku := (woken_of_signal hu).getElem hk nofun
        generalize u.threads = ts at *
        subst hfields
        exact .start (.inr hu) hku hend hloop hq
  · cases h
    rw [not_or, Nat.not_lt, Bool.not_eq_false] at hloop
    exact .startPolling hk hloop.1 hloop.2 hnum
  · obtain ⟨fd, hfd, rfl⟩ := Option.map_eq_some_iff.1 h
    rw [not_or, Nat.not_lt, Bool.not_eq_false] at hloop
    exact .take hk hloop.1 hloop.2 hnum hfd

theorem relock_moves {num : ℕ} (hk : s.threads[k]? = some (.polled num))
    (h : s.relock k num wake = some t) : Moves s (.relock k wake) t := by
  obtain ⟨v, hv, ht⟩ := Option.bind_eq_some_iff.1 h
  obtain ⟨fd, hfd, rfl⟩ := Option.map_eq_some_iff.1 ht
  obtain ⟨u, hu, rfl⟩ := signal_eq (s := s) (by rfl) hv
  have hfields := signal_fields hu
  have hku := (woken_of_signal hu).getElem hk nofun
  generalize u.threads = ts at *
  subst hfields
  exact .relock (u := { s with threads := ts }) hu hku hfd

theorem step_moves (h : s.step a = some t) : Moves s a t := by
  cases a with
  | submit wake =>
    obtain ⟨u, hu, rfl⟩ := signal_eq (s := s) (by rfl) h
    have hfields := signal_fields hu
    generalize u.threads = ts at *
    subst hfields
    exact .submit hu
  | add fd newh ok =>
    simp only [step] at h
    split_ifs at h with hfd
    cases h
    exact .add hfd
  | addThread =>
    cases h
    exact .addThread
  | endAll =>
    cases h
    exact .endAll
  | enter k wake =>
    simp only [step] at h
    split_ifs at h with hk
    exact enter_moves hk h
  | wake k =>
    simp only [step] at h
    split_ifs at h with hk
    cases h
    exact .wake hk
  | poll k ready =>
    simp only [step] at h
    split_ifs at h with hk
    cases h
    exact .poll hk.1 hk.2
  | pollEnd k =>
    simp only [step] at h
    split_ifs at h with hk
    cases h
    exact .pollEnd hk.1 hk.2
  | relock k wake =>
    simp only [step] at h
    split at h
    · rename_i num hk
      exact relock_moves hk h
    · cases h
  | finish k =>
    simp only [step] at h
    split at h
    · rename_i task hk
      cases h
      exact .finish hk
    · cases h
  | handled k ok =>
    simp only [step] at h
    split at h
    · rename_i fd handler hk
      cases h
      exact .handled hk
    · cases h
  | thrown k =>
    simp only [step] at h
    split at h
    · rename_i fd handler hk
      cases h
      exact .thrown hk
    · cases h

/-! ## Tasks -/

/-- The tasks that were started, and those in the queue, are the ones submitted, in this order. -/
def InOrder (s : Core) : Prop := s.started ++ s.taskQueue = List.range s.submitted

theorem Woken.fields (h : Woken s u) : u = { s with threads := u.threads } := by
  cases h <;> rfl

theorem InOrder.woken (hs : InOrder s) (h : Woken s u) : InOrder u := by
  rw [h.fields]
  exact hs

theorem woken_start {rest : List ℕ} (h : rest = [] ∧ u = s ∨ s.signal wake = some u) :
    Woken s u := by
  obtain ⟨-, rfl⟩ | h := h
  · exact .same
  · exact woken_of_signal h

theorem InOrder.step (hs : InOrder s) (h : s.step a = some t) : InOrder t := by
  cases step_moves h with
  | submit hu =>
    have := hs.woken (woken_of_signal hu)
    unfold InOrder at this ⊢
    rw [List.range_succ, ← this, List.append_assoc]
  | @start u k wake task rest hu _ _ _ hq =>
    have := hs.woken (woken_start hu)
    unfold InOrder at this
    show (u.started ++ [task]) ++ rest = List.range u.submitted
    rw [← this, hq, List.append_assoc]
    rfl
  | relock hu =>
    have := hs.woken (woken_of_signal hu)
    exact this
  | add | addThread | endAll | leave | wait | startPolling | take | wake | poll | pollEnd | finish
  | handled | thrown => exact hs

/-- Of two threads one is away for events and the other comes to two tasks. -/
def shift : List Act := [.add 3 7 true, .enter 0 0, .enter 1 0, .submit 1, .submit 0]

theorem shift_run : ∃ s, Run step Free (init 2) shift s ∧ s.threads = [.polling, .entering] ∧
    s.taskQueue = [0, 1] ∧ s.started = [] ∧ s.submitted = 2 ∧ s.endFlag = false :=
  ⟨_, Machine.exec_run rfl, rfl, rfl, rfl, rfl, rfl⟩

theorem countP_setThread (hk : s.threads[k]? = some x) :
    (s.setThread k y).threads.countP p + (p x).toNat = s.threads.countP p + (p y).toNat :=
  Counting.countP_set hk

theorem Woken.countP (h : Woken s u) (hp : p .waiting = p .entering) :
    u.threads.countP p = s.threads.countP p := by
  cases h with
  | same => rfl
  | woke hj =>
    have := countP_setThread (p := p) (y := .entering) hj
    rw [hp] at this
    omega

theorem setThread_getElem {j : ℕ} (h : (s.setThread k y).threads[j]? = some x) :
    j = k ∧ x = y ∨ j ≠ k ∧ s.threads[j]? = some x := by
  rw [setThread_threads, List.getElem?_set] at h
  split_ifs at h with hj hlt
  · exact .inl ⟨hj.symm, (Option.some.inj h).symm⟩
  · exact .inr ⟨Ne.symm hj, h⟩

theorem Woken.of_getElem (h : Woken s u) (hk : u.threads[k]? = some x) (hx : x ≠ .entering) :
    s.threads[k]? = some x := by
  cases h with
  | same => exact hk
  | woke _ =>
    obtain ⟨-, rfl⟩ | ⟨-, hk⟩ := setThread_getElem hk
    · exact absurd rfl hx
    · exact hk

/-- At most one thread is away for events, one if `m_pollable` says so, and then no event is left
in the backlog. -/
structure Polls (s : Core) : Prop where
  pollers : s.threads.countP Thread.isPoller ≤ 1
  pollable : s.pollable = true →
    s.threads.countP Thread.isPoller = 0 ∧ s.num = s.backlog.length ∧ s.off ≤ s.num
  away : s.pollable = false →
    s.num = s.off ∧ (s.endFlag = false → s.threads.countP Thread.isPoller = 1)
  polled : ∀ k num : ℕ, s.threads[k]? = some (.polled num) →
    num = s.backlog.length ∧ s.backlog ≠ []

theorem Polls.woken (hs : Polls s) (h : Woken s u) : Polls u := by
  have hcount := h.countP (p := Thread.isPoller) rfl
  have hfields := h.fields
  have hpolled : ∀ k num : ℕ, u.threads[k]? = some (.polled num) →
      s.threads[k]? = some (.polled num) := fun k num hk => h.of_getElem hk nofun
  generalize u.threads = ts at *
  subst hfields
  exact ⟨hcount.trans_le hs.pollers, fun hp => ⟨hcount.trans (hs.pollable hp).1,
    (hs.pollable hp).2⟩, fun hp => ⟨(hs.away hp).1, fun he => hcount.trans ((hs.away hp).2 he)⟩,
    fun k num hk => hs.polled k num (hpolled k num hk)⟩

/-- A thread that is not away goes on with something else. -/
theorem Polls.setThread (hs : Polls s) (hk : s.threads[k]? = some x) (hx : x.isPoller = false)
    (hy : y.isPoller = false) : Polls (s.setThread k y) := by
  have hcount := countP_setThread (p := Thread.isPoller) (y := y) hk
  rw [hx, hy] at hcount
  simp only [Bool.toNat_false, add_zero] at hcount
  refine ⟨hcount.trans_le hs.pollers, fun hp => ⟨hcount.trans (hs.pollable hp).1,
    (hs.pollable hp).2⟩, fun hp => ⟨(hs.away hp).1, fun he => hcount.trans ((hs.away hp).2 he)⟩,
    fun j num hj => ?_⟩
  obtain ⟨-, rfl⟩ | ⟨-, hj⟩ := setThread_getElem hj
  · cases hy
  · exact hs.polled j num hj

theorem polls_init (n : ℕ) : Polls (init n) where
  pollers := by simp [init, List.countP_replicate, Thread.isPoller]
  pollable _ := ⟨by simp [init, List.countP_replicate, Thread.isPoller], rfl, Nat.le_refl _⟩
  away hp := by cases hp
  polled k num hk := by simp [init, List.getElem?_replicate] at hk

/-- Nobody else is away for events. -/
theorem Polls.alone (hs : Polls s) {j : ℕ} (hk : s.threads[k]? = some x) (hx : x.isPoller = true)
    (hj : s.threads[j]? = some y) (hy : y.isPoller = true) : j = k :=
  Counting.index_unique hs.pollers hj hk hy hx

theorem Polls.not_pollable (hs : Polls s) (hk : s.threads[k]? = some x)
    (hx : x.isPoller = true) : s.pollable = false := by
  have hpos := Counting.countP_pos_of_mem (p := Thread.isPoller) (List.mem_of_getElem? hk) hx
  by_contra hp
  have := (hs.pollable (by simpa using hp)).1
  omega

theorem Polls.startPolling (hs : Polls s) (hk : s.threads[k]? = some .entering)
    (hp : s.pollable = true) (hnum : s.num = s.off) :
    Polls { s.setThread k .polling with pollable := false } := by
  have hcount := countP_setThread (p := Thread.isPoller) (y := .polling) hk
  rw [(hs.pollable hp).1] at hcount
  refine ⟨hcount.le, nofun, fun _ => ⟨hnum, fun _ => hcount⟩, fun j num hj => ?_⟩
  obtain ⟨-, hnum⟩ | ⟨-, hj⟩ := setThread_getElem hj
  · cases hnum
  · exact hs.polled j num hj

theorem Polls.poll {ready : List ℕ} (hs : Polls s) (hk : s.threads[k]? = some .polling)
    (hne : ready ≠ []) : Polls (s.poll k ready) := by
  have hcount := countP_setThread (p := Thread.isPoller) (y := .polled ready.length) hk
  have hcount := Nat.add_right_cancel hcount
  refine ⟨hcount.trans_le hs.pollers, fun hp => ?_, fun hp => ⟨(hs.away hp).1,
    fun he => hcount.trans ((hs.away hp).2 he)⟩, fun j num hj => ?_⟩
  · exact absurd ((hs.not_pollable hk rfl).symm.trans hp) (by simp)
  · obtain ⟨-, hnum⟩ | ⟨hkj, hj⟩ := setThread_getElem hj
    · cases hnum
      exact ⟨rfl, hne⟩
    · exact absurd (hs.alone hk rfl hj rfl) hkj

theorem Polls.pollEnd (hs : Polls s) (hk : s.threads[k]? = some .polling)
    (hend : s.endFlag = true) : Polls (s.setThread k .ended) := by
  have hcount := countP_setThread (p := Thread.isPoller) (y := .ended) hk
  simp only [Thread.isPoller, Bool.toNat_true, Bool.toNat_false, add_zero] at hcount
  have hle := hs.pollers
  refine ⟨by omega, fun hp => ?_, fun hp => ⟨(hs.away hp).1, fun he => ?_⟩, fun j num hj => ?_⟩
  · exact absurd ((hs.not_pollable hk rfl).symm.trans hp) (by simp)
  · exact absurd (hend.symm.trans he) (by simp)
  · obtain ⟨-, hnum⟩ | ⟨-, hj⟩ := setThread_getElem hj
    · cases hnum
    · exact hs.polled j num hj

theorem Polls.relock {num fd : ℕ} (hs : Polls s) (hk : s.threads[k]? = some (.polled num))
    (hfd : s.backlog[0]? = some fd) :
    Polls { s.setThread k (.handling fd (s.state fd)) with
      off := 1
      num := num
      pollable := true
      handed := s.handed ++ [fd] } := by
  have hcount := countP_setThread (p := Thread.isPoller) (y := .handling fd (s.state fd)) hk
  simp only [Thread.isPoller, Bool.toNat_true, Bool.toNat_false, add_zero] at hcount
  have hle := hs.pollers
  have hnum := (hs.polled k num hk).1
  have hpos : 0 < s.backlog.length := (List.getElem?_eq_some_iff.1 hfd).1
  have hzero : (s.setThread k (.handling fd (s.state fd))).threads.countP Thread.isPoller = 0 := by
    omega
  refine ⟨hzero.trans_le (Nat.zero_le 1), fun _ => ⟨hzero, hnum, hnum ▸ hpos⟩, nofun,
    fun j num hj => ?_⟩
  obtain ⟨-, hnum⟩ | ⟨hne, hj⟩ := setThread_getElem hj
  · cases hnum
  · exact absurd (hs.alone hk rfl hj rfl) hne

theorem countP_broadcast (hp : p .waiting = p .entering) :
    s.broadcast.threads.countP p = s.threads.countP p := by
  unfold broadcast
  rw [List.countP_map]
  refine List.countP_congr fun x _ => ?_
  simp only [Function.comp_apply]
  split_ifs with hx
  · rw [hx, hp]
  · rfl

theorem broadcast_getElem (h : s.broadcast.threads[k]? = some x) (hx : x ≠ .entering) :
    s.threads[k]? = some x := by
  simp only [broadcast, List.getElem?_map, Option.map_eq_some_iff] at h
  obtain ⟨z, hz, hzx⟩ := h
  split_ifs at hzx
  · exact absurd hzx.symm hx
  · rwa [hzx] at hz

theorem Polls.step (hs : Polls s) (h : s.step a = some t) : Polls t := by
  cases step_moves h with
  | submit hu =>
    have hu := hs.woken (woken_of_signal hu)
    exact ⟨hu.pollers, hu.pollable, hu.away, hu.polled⟩
  | add _ => exact ⟨hs.pollers, hs.pollable, hs.away, hs.polled⟩
  | addThread =>
    have hcount : (s.threads ++ [Thread.entering]).countP Thread.isPoller =
        s.threads.countP Thread.isPoller := by simp [Thread.isPoller]
    refine ⟨hcount.trans_le hs.pollers, fun hp => ⟨hcount.trans (hs.pollable hp).1,
      (hs.pollable hp).2⟩, fun hp => ⟨(hs.away hp).1, fun he => hcount.trans ((hs.away hp).2 he)⟩,
      fun k num hk => hs.polled k num ?_⟩
    simp only [List.getElem?_append] at hk
    split_ifs at hk
    · exact hk
    · exact absurd (List.mem_of_getElem? hk) (by simp)
  | endAll =>
    have hcount : { s with endFlag := true }.broadcast.threads.countP Thread.isPoller =
        s.threads.countP Thread.isPoller := countP_broadcast rfl
    refine ⟨hcount.trans_le hs.pollers, fun hp => ⟨hcount.trans (hs.pollable hp).1,
      (hs.pollable hp).2⟩, fun hp => ⟨(hs.away hp).1, nofun⟩,
      fun k num hk => hs.polled k num (broadcast_getElem hk nofun)⟩
  | leave hk _ => exact hs.setThread hk rfl rfl
  | wait hk _ _ _ => exact hs.setThread hk rfl rfl
  | @start u k wake task rest hu hk _ _ _ =>
    have hu := (hs.woken (woken_start hu)).setThread (y := .running task) hk rfl rfl
    exact ⟨hu.pollers, hu.pollable, hu.away, hu.polled⟩
  | startPolling hk _ hp hnum => exact hs.startPolling hk hp hnum
  | @take k wake fd hk _ hp hnum hfd =>
    have hu := hs.setThread (y := .handling fd (s.state fd)) hk rfl rfl
    have hle := (hs.pollable hp).2.2
    refine ⟨hu.pollers, fun hp => ⟨(hu.pollable hp).1, (hu.pollable hp).2.1, ?_⟩,
      fun hp' => absurd (hp.symm.trans hp') (by simp), hu.polled⟩
    show s.off + 1 ≤ s.num
    omega
  | wake hk => exact hs.setThread hk rfl rfl
  | poll hk hready => exact hs.poll hk hready.1
  | pollEnd hk hend => exact hs.pollEnd hk hend
  | relock hu hk hfd => exact (hs.woken (woken_of_signal hu)).relock hk hfd
  | finish hk => exact hs.setThread hk rfl rfl
  | @handled k fd handler ok hk =>
    have hu := hs.setThread (y := .entering) hk rfl rfl
    exact ⟨hu.pollers, hu.pollable, hu.away, hu.polled⟩
  | @thrown k fd handler hk =>
    have hu := hs.setThread (y := .entering) hk rfl rfl
    exact ⟨hu.pollers, hu.pollable, hu.away, hu.polled⟩

theorem run_polls {n : ℕ} (h : Run step Free (init n) as s) : Polls s :=
  h.inv (fun _ _ _ hs _ hst => hs.step hst) (polls_init n)

/-! ## Events -/

/-- The events that nobody has taken yet. -/
def due (s : Core) : List ℕ :=
  if s.pollable = true then s.backlog.drop s.off
  else if s.threads.countP Thread.isPolled = 0 then [] else s.backlog

theorem due_congr (hp : t.pollable = s.pollable) (hb : t.backlog = s.backlog) (ho : t.off = s.off)
    (hc : t.threads.countP Thread.isPolled = s.threads.countP Thread.isPolled) :
    t.due = s.due := by
  unfold due
  rw [hp, hb, ho, hc]

theorem due_setThread (hk : s.threads[k]? = some x) (hxy : x.isPolled = y.isPolled) :
    (s.setThread k y).due = s.due := by
  have := countP_setThread (p := Thread.isPolled) (y := y) hk
  rw [hxy] at this
  exact due_congr rfl rfl rfl (Nat.add_right_cancel this)

theorem Woken.due (h : Woken s u) : u.due = s.due := by
  have hcount := h.countP (p := Thread.isPolled) rfl
  have hfields := h.fields
  generalize u.threads = ts at *
  subst hfields
  exact due_congr rfl rfl rfl hcount

/-- Where somebody has got events, that is the only one who is away. -/
theorem Polls.countP_polled (hs : Polls s) (hk : s.threads[k]? = some .polling) :
    s.threads.countP Thread.isPolled = 0 := by
  rw [List.countP_eq_zero]
  intro y hy hp
  obtain ⟨j, hj⟩ := List.mem_iff_getElem?.1 hy
  obtain rfl := hs.alone hk rfl hj (by cases y <;> first | rfl | cases hp)
  rw [hk] at hj
  cases hj
  cases hp

theorem due_startPolling (hs : Polls s) (hp : s.pollable = true) (hnum : s.num = s.off) :
    s.due = [] ∧ { s.setThread k .polling with pollable := false }.due = [] := by
  obtain ⟨hcount, hlen, -⟩ := hs.pollable hp
  refine ⟨?_, ?_⟩
  · unfold due
    rw [if_pos hp, List.drop_eq_nil_iff]
    omega
  · unfold due
    rw [if_neg (by simp), if_pos]
    rw [List.countP_eq_zero] at hcount ⊢
    intro y hy hpolled
    obtain hy | rfl := List.mem_or_eq_of_mem_set hy
    · exact hcount y hy (by cases y <;> first | rfl | cases hpolled)
    · cases hpolled

theorem due_poll {ready : List ℕ} (hs : Polls s) (hk : s.threads[k]? = some .polling) :
    s.due = [] ∧ (s.poll k ready).due = ready := by
  have hp := hs.not_pollable hk rfl
  refine ⟨?_, ?_⟩
  · unfold due
    rw [if_neg (by simp [hp]), if_pos (hs.countP_polled hk)]
  · unfold due
    have hcount := countP_setThread (p := Thread.isPolled) (y := .polled ready.length) hk
    rw [hs.countP_polled hk] at hcount
    rw [if_neg (by simpa [Core.poll, Core.setThread] using hp), if_neg]
    · rfl
    · rw [show (s.poll k ready).threads = (s.setThread k (.polled ready.length)).threads from rfl]
      simp only [Thread.isPolled, Bool.toNat_false, Bool.toNat_true] at hcount
      omega

theorem drop_of_getElem {l : List ℕ} {i fd : ℕ} (h : l[i]? = some fd) :
    l.drop i = fd :: l.drop (i + 1) := by
  obtain ⟨hi, rfl⟩ := List.getElem?_eq_some_iff.1 h
  exact List.drop_eq_getElem_cons hi

theorem due_take {fd : ℕ} (hp : s.pollable = true) (hfd : s.backlog[s.off]? = some fd) :
    s.due = fd :: { s.setThread k (.handling fd (s.state fd)) with
      off := s.off + 1, handed := s.handed ++ [fd] }.due := by
  unfold due
  rw [if_pos hp, if_pos (show (s.setThread k (.handling fd (s.state fd))).pollable = true from hp)]
  exact drop_of_getElem hfd

theorem due_relock {num fd : ℕ} (hs : Polls s) (hk : s.threads[k]? = some (.polled num))
    (hfd : s.backlog[0]? = some fd) :
    s.due = fd :: { s.setThread k (.handling fd (s.state fd)) with
      off := 1
      num := num
      pollable := true
      handed := s.handed ++ [fd] }.due := by
  have hpos := Counting.countP_pos_of_mem (p := Thread.isPolled) (List.mem_of_getElem? hk) rfl
  unfold due
  rw [if_neg (by simp [hs.not_pollable hk rfl]), if_neg (by omega), if_pos rfl]
  exact drop_of_getElem hfd

/-- The thread that was away handles the event, while the other one is in a task. -/
def handover : List Act := shift ++ [.enter 1 0, .poll 0 [3], .relock 0 0]

theorem handover_run : ∃ s, Run step Free (init 2) handover s ∧
    s.threads = [.handling 3 (some 7), .running 0] ∧ s.reported = [3] ∧ s.endFlag = false :=
  ⟨_, Machine.exec_run rfl, rfl, rfl, rfl⟩

/-- The events of the fd that nobody has taken, and the threads that are in its `read_event`. -/
def held (s : Core) (fd : ℕ) : ℕ := s.due.count fd + s.threads.countP (Thread.handles fd)

/-- What a step does to what is held of an fd. -/
inductive Touches (fd : ℕ) (s t : Core) : Prop
  | other : t.held fd = s.held fd → t.notify fd = s.notify fd → t.state fd = s.state fd →
      Touches fd s t
  | added : s.state fd = none → t.held fd = s.held fd → (t.state fd).isSome →
      (t.notify fd = .armed ∨ t.notify fd = s.notify fd) → Touches fd s t
  | reported : s.notify fd = .armed → t.held fd = s.held fd + 1 → t.notify fd = .shot →
      t.state fd = s.state fd → Touches fd s t
  | handled (ok : Bool) : s.held fd = t.held fd + 1 →
      t.notify fd = (s.notify fd).shotReactivate ok → t.state fd = s.state fd → Touches fd s t
  | thrown : s.held fd = t.held fd + 1 → t.notify fd = .unwatched → Touches fd s t

theorem held_of_due {fd : ℕ} (hd : t.due = s.due)
    (hc : t.threads.countP (Thread.handles fd) = s.threads.countP (Thread.handles fd)) :
    t.held fd = s.held fd := by
  unfold held
  rw [hd, hc]

theorem countP_handles (fd : ℕ) (hk : s.threads[k]? = some x) (hx : x.handles fd = y.handles fd) :
    (s.setThread k y).threads.countP (Thread.handles fd) =
      s.threads.countP (Thread.handles fd) := by
  have := countP_setThread (p := Thread.handles fd) (y := y) hk
  rw [hx] at this
  exact Nat.add_right_cancel this

theorem held_setThread (fd : ℕ) (hk : s.threads[k]? = some x) (hp : x.isPolled = y.isPolled)
    (hx : x.handles fd = y.handles fd) : (s.setThread k y).held fd = s.held fd :=
  held_of_due (due_setThread hk hp) (countP_handles fd hk hx)

theorem Woken.held (h : Woken s u) (fd : ℕ) : u.held fd = s.held fd :=
  held_of_due h.due (h.countP rfl)

/-- An event that is taken is held by the thread that takes it. -/
theorem held_taken {fd : ℕ} {handler : Option ℕ} (fd' : ℕ) (hk : s.threads[k]? = some x)
    (hx : x.handles fd' = false) (ht : t.threads = (s.setThread k (.handling fd handler)).threads)
    (hd : s.due = fd :: t.due) :
    t.held fd' = s.held fd' := by
  have hcount := countP_setThread (p := Thread.handles fd') (y := .handling fd handler) hk
  simp only [hx, Bool.toNat_false, add_zero] at hcount
  unfold held
  rw [ht, hcount, hd, List.count_cons]
  by_cases hfd : fd = fd'
  · simp [Thread.handles, hfd]
    omega
  · simp [Thread.handles, hfd]

/-- A thread that is done with an fd holds it no more. -/
theorem held_done {fd : ℕ} {handler : Option ℕ} (fd' : ℕ)
    (hk : s.threads[k]? = some (.handling fd handler)) (hd : t.due = s.due)
    (ht : t.threads = (s.setThread k .entering).threads) :
    s.held fd' = t.held fd' + if fd = fd' then 1 else 0 := by
  have hcount := countP_setThread (p := Thread.handles fd') (y := .entering) hk
  simp only [Thread.handles, Bool.toNat_false, add_zero] at hcount
  unfold held
  rw [ht, hd, ← hcount]
  by_cases hfd : fd = fd'
  · simp [hfd]
    omega
  · simp [hfd]

theorem touches_poll {ready : List ℕ} (hs : Polls s) (hk : s.threads[k]? = some .polling)
    (hready : s.Ready ready) (fd : ℕ) : Touches fd s (s.poll k ready) := by
  obtain ⟨hdue, hdue'⟩ := @due_poll s k ready hs hk
  have hcount := countP_handles fd (y := .polled ready.length) hk rfl
  have hheld : (s.poll k ready).held fd = ready.count fd + s.held fd := by
    unfold held
    rw [hdue, hdue', List.count_nil, Nat.zero_add]
    exact congrArg (ready.count fd + ·) hcount
  by_cases hfd : fd ∈ ready
  · refine .reported (hready.2.2.2 fd hfd) ?_ (by simp [Core.poll, hfd]) rfl
    rw [hheld, hready.2.1.count, if_pos hfd, Nat.add_comm]
  · refine .other ?_ (by simp [Core.poll, hfd, setThread]) rfl
    rw [hheld, List.count_eq_zero_of_not_mem hfd, Nat.zero_add]

theorem touches_handled {fd : ℕ} {handler : Option ℕ} {ok : Bool}
    (hk : s.threads[k]? = some (.handling fd handler)) (fd' : ℕ) :
    Touches fd' s ((s.shotReactivate fd ok).setThread k .entering) := by
  have hdue := (due_congr rfl rfl rfl rfl).trans (due_setThread (y := .entering) hk rfl)
  have hheld := held_done fd' (t := (s.shotReactivate fd ok).setThread k .entering) hk hdue rfl
  by_cases hfd : fd = fd'
  · subst hfd
    rw [if_pos rfl] at hheld
    exact .handled ok hheld (by simp [setThread, Core.shotReactivate]) rfl
  · rw [if_neg hfd] at hheld
    refine .other hheld.symm ?_ rfl
    simp [setThread, Core.shotReactivate, Function.update_of_ne (Ne.symm hfd)]

theorem touches_thrown {fd : ℕ} {handler : Option ℕ}
    (hk : s.threads[k]? = some (.handling fd handler)) (fd' : ℕ) :
    Touches fd' s ((s.shotRemove fd).setThread k .entering) := by
  have hdue := (due_congr rfl rfl rfl rfl).trans (due_setThread (y := .entering) hk rfl)
  have hheld := held_done fd' (t := (s.shotRemove fd).setThread k .entering) hk hdue rfl
  by_cases hfd : fd = fd'
  · subst hfd
    rw [if_pos rfl] at hheld
    exact .thrown hheld (by simp [setThread, shotRemove])
  · rw [if_neg hfd] at hheld
    refine .other hheld.symm ?_ ?_ <;>
      simp [setThread, shotRemove, Function.update_of_ne (Ne.symm hfd)]

theorem touches_add {fd newh : ℕ} {ok : Bool} (hfd : s.state fd = none) (fd' : ℕ) :
    Touches fd' s (s.add fd newh ok) := by
  by_cases hne : fd' = fd
  · subst hne
    refine .added hfd rfl (by simp [Core.add]) ?_
    simp only [Core.add, Function.update_self, Notify.addNotify]
    split_ifs
    · exact .inl rfl
    · exact .inr rfl
  · refine .other rfl ?_ ?_ <;> simp [Core.add, Function.update_of_ne hne]

theorem step_touches (hs : Polls s) (h : s.step a = some t) (fd : ℕ) : Touches fd s t := by
  cases step_moves h with
  | submit hu =>
    have hw := woken_of_signal hu
    refine .other ((held_of_due (due_congr rfl rfl rfl rfl) rfl).trans (hw.held fd)) ?_ ?_ <;>
      rw [hw.fields]
  | add hfd => exact touches_add hfd fd
  | addThread =>
    refine .other (held_of_due (due_congr rfl rfl rfl ?_) ?_) rfl rfl <;>
      simp [Thread.isPolled, Thread.handles]
  | endAll =>
    exact .other (held_of_due (due_congr rfl rfl rfl (countP_broadcast rfl))
      (countP_broadcast rfl)) rfl rfl
  | leave hk _ => exact .other (held_setThread fd hk rfl rfl) rfl rfl
  | wait hk _ _ _ => exact .other (held_setThread fd hk rfl rfl) rfl rfl
  | @start u k wake task rest hu hk _ _ _ =>
    have hw := woken_start hu
    have hheld := (held_setThread fd (y := .running task) hk rfl rfl).trans (hw.held fd)
    refine .other ((held_of_due (due_congr rfl rfl rfl rfl) rfl).trans hheld) ?_ ?_ <;>
      · rw [hw.fields]
        rfl
  | @startPolling k wake hk _ hp hnum =>
    obtain ⟨hdue, hdue'⟩ := due_startPolling (k := k) hs hp hnum
    exact .other (held_of_due (hdue'.trans hdue.symm) (countP_handles fd hk rfl)) rfl rfl
  | take hk _ hp _ hfd => exact .other (held_taken fd hk rfl rfl (due_take hp hfd)) rfl rfl
  | wake hk => exact .other (held_setThread fd hk rfl rfl) rfl rfl
  | poll hk hready => exact touches_poll hs hk hready fd
  | pollEnd hk _ => exact .other (held_setThread fd hk rfl rfl) rfl rfl
  | relock hu hk hfd =>
    have hw := woken_of_signal hu
    have hdue := due_relock (hs.woken hw) hk hfd
    refine .other ?_ ?_ ?_
    · exact (held_taken fd hk rfl (by rfl) hdue).trans (hw.held fd)
    · rw [hw.fields]
      rfl
    · rw [hw.fields]
      rfl
  | finish hk => exact .other (held_setThread fd hk rfl rfl) rfl rfl
  | handled hk => exact touches_handled hk fd
  | thrown hk => exact touches_thrown hk fd

/-- What the edge has of an fd bounds who holds it. -/
structure Owned (s : Core) (fd : ℕ) : Prop where
  once : s.held fd ≤ 1
  shot : s.held fd ≠ 0 → s.notify fd = .shot
  handler : s.notify fd ≠ .unwatched → (s.state fd).isSome

theorem Owned.step {fd : ℕ} (hs : Owned s fd) (h : Touches fd s t) : Owned t fd := by
  cases h with
  | other hh hn hst =>
    refine ⟨hh ▸ hs.once, fun hne => ?_, fun hne => ?_⟩
    · rw [hn]
      exact hs.shot (hh ▸ hne)
    · rw [hst]
      exact hs.handler (hn ▸ hne)
  | added hst hh hst' hn =>
    -- the fd was not watched, so nobody held it
    have hun : s.notify fd = .unwatched := by
      by_contra hne
      have := hs.handler hne
      simp [hst] at this
    have hzero : s.held fd = 0 := by
      by_contra hne
      rw [hs.shot hne] at hun
      cases hun
    exact ⟨by omega, fun hne => absurd (hh.trans hzero) hne, fun _ => hst'⟩
  | reported ha hh hn hst =>
    have hzero : s.held fd = 0 := by
      by_contra hne
      rw [hs.shot hne] at ha
      cases ha
    refine ⟨by omega, fun _ => hn, fun _ => ?_⟩
    rw [hst]
    exact hs.handler (by rw [ha]; exact nofun)
  | handled ok hh hn hst =>
    have hzero : t.held fd = 0 := by
      have := hs.once
      omega
    refine ⟨by omega, fun hne => absurd hzero hne, fun _ => ?_⟩
    rw [hst]
    exact hs.handler (by rw [hs.shot (by omega)]; exact nofun)
  | thrown hh hn =>
    have := hs.once
    exact ⟨by omega, fun hne => absurd hne (by omega), fun hne => absurd hn hne⟩

/-- A thread is in the handler that its fd has. -/
def Serves (s : Core) : Prop :=
  ∀ (k fd : ℕ) (handler : Option ℕ), s.threads[k]? = some (.handling fd handler) →
    handler = s.state fd

theorem Serves.setThread (hs : Serves s) (k : ℕ)
    (hy : ∀ fd handler, y = .handling fd handler → handler = s.state fd) :
    Serves (s.setThread k y) := by
  intro j fd handler hj
  obtain ⟨-, hy'⟩ | ⟨-, hj⟩ := setThread_getElem hj
  · exact hy fd handler hy'.symm
  · exact hs j fd handler hj

theorem Serves.woken (hs : Serves s) (h : Woken s u) : Serves u := by
  intro k fd handler hk
  have hk' := h.of_getElem hk (by simp)
  rw [h.fields]
  exact hs k fd handler hk'

/-- Only an fd that nobody handles is given a handler. -/
theorem Serves.add {fd newh : ℕ} {ok : Bool} (hs : Serves s)
    (hfd : ∀ (k : ℕ) (handler : Option ℕ), s.threads[k]? ≠ some (.handling fd handler)) :
    Serves (s.add fd newh ok) := by
  intro k fd' handler hk
  have hne : fd' ≠ fd := by
    rintro rfl
    exact hfd k handler hk
  simp only [Core.add, Function.update_of_ne hne]
  exact hs k fd' handler hk

/-- The thread that closes an fd is the only one that handles it. -/
theorem Serves.thrown {fd : ℕ} (hs : Serves s)
    (hfd : ∀ (j : ℕ) (handler : Option ℕ), s.threads[j]? = some (.handling fd handler) → j = k) :
    Serves ((s.shotRemove fd).setThread k .entering) := by
  intro j fd' handler hj
  obtain ⟨-, hy⟩ | ⟨hjk, hj⟩ := setThread_getElem (s := s.shotRemove fd) hj
  · cases hy
  have hne : fd' ≠ fd := by
    rintro rfl
    exact hjk (hfd j handler hj)
  simp only [Core.setThread, shotRemove, Function.update_of_ne hne]
  exact hs j fd' handler hj

theorem Owned.index {fd j : ℕ} {handler handler' : Option ℕ} (hs : Owned s fd)
    (hj : s.threads[j]? = some (.handling fd handler))
    (hk : s.threads[k]? = some (.handling fd handler')) : j = k := by
  have honce := hs.once
  unfold held at honce
  exact Counting.index_unique (p := Thread.handles fd) (by omega) hj hk
    (by simp [Thread.handles]) (by simp [Thread.handles])

theorem Owned.held_pos {fd : ℕ} {handler : Option ℕ}
    (hk : s.threads[k]? = some (.handling fd handler)) :
    0 < s.threads.countP (Thread.handles fd) :=
  Counting.countP_pos_of_mem (List.mem_of_getElem? hk) (by simp [Thread.handles])

theorem Owned.shot_of_handling {fd : ℕ} {handler : Option ℕ} (hs : Owned s fd)
    (hk : s.threads[k]? = some (.handling fd handler)) : s.notify fd = .shot := by
  have hpos := held_pos hk
  exact hs.shot (by unfold held; omega)

theorem Owned.state_of_handling {fd : ℕ} {handler : Option ℕ} (hs : Owned s fd)
    (hk : s.threads[k]? = some (.handling fd handler)) : (s.state fd).isSome :=
  hs.handler (by rw [hs.shot_of_handling hk]; simp)

theorem Serves.step (hs : Serves s) (howned : ∀ fd, Owned s fd) (h : s.step a = some t) :
    Serves t := by
  cases step_moves h with
  | submit hu =>
    have hu := hs.woken (woken_of_signal hu)
    exact hu
  | add hfd =>
    refine hs.add fun k handler hk => ?_
    have hsome := (howned _).state_of_handling hk
    simp [hfd] at hsome
  | addThread =>
    intro k fd handler hk
    simp only [List.getElem?_append] at hk
    split_ifs at hk
    · exact hs k fd handler hk
    · exact absurd (List.mem_of_getElem? hk) (by simp)
  | endAll => exact fun k fd handler hk => hs k fd handler (broadcast_getElem hk (by simp))
  | leave hk _ => exact hs.setThread _ (by simp)
  | wait hk _ _ _ => exact hs.setThread _ (by simp)
  | @start u k wake task rest hu hk _ _ _ =>
    exact (hs.woken (woken_start hu)).setThread k (y := .running task) (by simp)
  | @startPolling k wake hk _ _ _ => exact hs.setThread k (y := .polling) (by simp)
  | @take k wake fd hk _ _ _ _ =>
    refine hs.setThread k (y := .handling fd (s.state fd)) fun fd' handler hy => ?_
    cases hy
    rfl
  | wake hk => exact hs.setThread _ (by simp)
  | @poll k ready hk _ => exact hs.setThread k (y := .polled ready.length) (by simp)
  | pollEnd hk _ => exact hs.setThread _ (by simp)
  | @relock u k num fd wake hu hk hfd =>
    have hu := hs.woken (woken_of_signal hu)
    refine hu.setThread k (y := .handling fd (u.state fd)) fun fd' handler hy => ?_
    cases hy
    rfl
  | finish hk => exact hs.setThread _ (by simp)
  | @handled k fd handler ok hk => exact hs.setThread k (y := .entering) (by simp)
  | @thrown k fd handler hk =>
    exact hs.thrown fun j handler' hj => (howned fd).index hj hk

/-- No fd is handled by two threads, nor reported while one handles it, and the handler that a
thread is in is the one that the fd has. -/
theorem handling_unique {n : ℕ} (h : Run step Free (init n) as s) {fd : ℕ} {j k : ℕ}
    {handler handler' : Option ℕ} (hj : s.threads[j]? = some (.handling fd handler))
    (hk : s.threads[k]? = some (.handling fd handler')) :
    j = k ∧ fd ∉ s.due ∧ s.notify fd = .shot ∧
      ∃ newh, handler = some newh ∧ s.state fd = some newh := by
  have hinv := h.inv (I := fun s => Polls s ∧ (∀ fd, Owned s fd) ∧ Serves s)
    (fun _ _ _ hs _ hst => ⟨hs.1.step hst,
      fun fd => (hs.2.1 fd).step (step_touches hs.1 hst fd), hs.2.2.step hs.2.1 hst⟩)
    ⟨polls_init n, fun fd => ⟨by simp [held, due, init, List.countP_replicate, Thread.handles],
      fun hne => absurd (by simp [held, due, init, List.countP_replicate, Thread.handles]) hne,
      fun hne => absurd rfl hne⟩, fun k fd handler hk =>
        absurd (List.mem_of_getElem? hk) (by simp [init, List.mem_replicate])⟩
  obtain ⟨-, howned, hserves⟩ := hinv
  have hown := howned fd
  obtain ⟨newh, hnewh⟩ := Option.isSome_iff_exists.1 (hown.state_of_handling hj)
  refine ⟨hown.index hj hk, ?_, hown.shot_of_handling hj, newh, ?_, hnewh⟩
  · have hpos := Owned.held_pos hj
    have honce := hown.once
    unfold held at honce
    rw [← List.count_eq_zero]
    omega
  · rw [hserves j fd handler hj, hnewh]

theorem handling_unique_handover : ∃ s, Run step Free (init 2) handover s ∧ 3 ∉ s.due ∧
    s.notify 3 = .shot ∧ ∃ newh, some 7 = some newh ∧ s.state 3 = some newh := by
  obtain ⟨s, hs, hth, -⟩ := handover_run
  have hk : s.threads[0]? = some (.handling 3 (some 7)) := by rw [hth]; rfl
  exact ⟨s, hs, (handling_unique hs hk hk).2⟩

/-! ## Who starts the tasks -/

/-- While there is something to do, two threads do not wait. -/
structure Staffed (s : Core) : Prop where
  many : 2 ≤ s.threads.length
  alive : Thread.ended ∉ s.threads
  watch : s.pollable = true ∨ s.taskQueue ≠ [] →
    s.threads.countP Thread.waits + 2 ≤ s.threads.length

theorem Woken.length (h : Woken s u) : u.threads.length = s.threads.length := by
  cases h with
  | same => rfl
  | woke _ => exact List.length_set

theorem Woken.waits_le (h : Woken s u) :
    u.threads.countP Thread.waits ≤ s.threads.countP Thread.waits := by
  cases h with
  | same => exact Nat.le_refl _
  | woke hj =>
    have := countP_setThread (p := Thread.waits) (y := .entering) hj
    simp only [Thread.waits, Bool.toNat_true, Bool.toNat_false] at this
    omega

theorem Woken.alive (h : Woken s u) (hs : Thread.ended ∉ s.threads) : .ended ∉ u.threads := by
  intro hm
  obtain ⟨j, hj⟩ := List.mem_iff_getElem?.1 hm
  exact hs (List.mem_of_getElem? (h.of_getElem hj nofun))

/-- One that waited is woken, if any did. -/
theorem waits_signal (h : s.signal wake = some u) :
    u.threads.countP Thread.waits + 1 = s.threads.countP Thread.waits ∨
      u.threads.countP Thread.waits = 0 := by
  unfold signal at h
  split_ifs at h with hmem hj
  · cases h
    exact .inl (countP_setThread (p := Thread.waits) (y := .entering) hj)
  · cases h
    refine .inr (List.countP_eq_zero.2 fun x hx hw => hmem ?_)
    cases x <;> first | exact hx | cases hw

theorem Staffed.woken (hs : Staffed s) (h : Woken s u) : Staffed u := by
  have hlen := h.length
  have hle := h.waits_le
  refine ⟨hlen ▸ hs.many, h.alive hs.alive, fun hw => ?_⟩
  rw [h.fields] at hw
  have := hs.watch hw
  omega

theorem Staffed.setThread (hs : Staffed s) (hk : s.threads[k]? = some x) (hy : y ≠ .ended)
    (hw : y.waits = false) : Staffed (s.setThread k y) := by
  have hlen : (s.setThread k y).threads.length = s.threads.length := List.length_set
  have hcount := countP_setThread (p := Thread.waits) (y := y) hk
  rw [hw, Bool.toNat_false, Nat.add_zero] at hcount
  refine ⟨hlen ▸ hs.many, fun hm => ?_, fun hwatch => ?_⟩
  · obtain ⟨j, hj⟩ := List.mem_iff_getElem?.1 hm
    obtain ⟨-, rfl⟩ | ⟨-, hj⟩ := setThread_getElem hj
    · exact hy rfl
    · exact hs.alive (List.mem_of_getElem? hj)
  · have := hs.watch hwatch
    omega

theorem isPoller_of_waits (x : Thread) (hx : x.waits = true) : x.isPoller = false := by
  cases x <;> first | rfl | cases hx

/-- The one that is away does not wait. -/
theorem Polls.waits_lt (hs : Polls s) (hp : s.pollable = false) (hend : s.endFlag = false) :
    s.threads.countP Thread.waits + 1 ≤ s.threads.length := by
  have := Counting.countP_add_le isPoller_of_waits s.threads
  rw [(hs.away hp).2 hend] at this
  exact this

/-- After a `signal` two threads do not wait, whatever there was to do before. -/
theorem Staffed.signal (hs : Staffed s) (hp : Polls s) (hend : s.endFlag = false)
    (h : s.signal wake = some u) : u.threads.countP Thread.waits + 2 ≤ u.threads.length := by
  have hw := woken_of_signal h
  have hlen := hw.length
  have hmany := hs.many
  obtain hless | hzero := waits_signal h
  · cases hpol : s.pollable with
    | true =>
      have := hs.watch (.inl hpol)
      omega
    | false =>
      have := hp.waits_lt hpol hend
      omega
  · omega

theorem Staffed.step (hs : Staffed s) (hp : Polls s) (hend : t.endFlag = false)
    (h : s.step a = some t) : Staffed t := by
  cases step_moves h with
  | submit hu =>
    have hw := woken_of_signal hu
    have hend' : s.endFlag = false := by
      rw [hw.fields] at hend
      exact hend
    have hwatch := hs.signal hp hend' hu
    exact ⟨(hs.woken hw).many, (hs.woken hw).alive, fun _ => hwatch⟩
  | add _ => exact ⟨hs.many, hs.alive, hs.watch⟩
  | addThread =>
    have hmany := hs.many
    refine ⟨?_, by simpa using hs.alive, fun hw => ?_⟩
    · simp only [List.length_append, List.length_singleton]
      omega
    · have := hs.watch hw
      simp only [List.countP_append, List.countP_singleton, Thread.waits, List.length_append,
        List.length_singleton]
      simpa using Nat.le_succ_of_le this
  | endAll => cases hend
  | leave _ he => exact absurd (he.symm.trans hend) (by simp)
  | @wait k wake hk hpol he hq =>
    have hlen : (s.setThread k .waiting).threads.length = s.threads.length := List.length_set
    refine ⟨hlen ▸ hs.many, fun hm => ?_, fun hw => ?_⟩
    · obtain hm | hm := List.mem_or_eq_of_mem_set hm
      · exact hs.alive hm
      · cases hm
    · obtain hw | hw := hw
      · exact absurd (hpol.symm.trans hw) (by simp)
      · exact absurd hq hw
  | @start u k wake task rest hu hk _ _ hq =>
    have hu := ((hs.woken (woken_start hu)).setThread (y := .running task) hk nofun rfl)
    exact ⟨hu.many, hu.alive, fun _ => hu.watch (.inr (hq ▸ List.cons_ne_nil _ _))⟩
  | startPolling hk _ hpol _ =>
    have hu := hs.setThread (y := .polling) hk nofun rfl
    exact ⟨hu.many, hu.alive, fun _ => hu.watch (.inl hpol)⟩
  | @take k wake fd hk _ _ _ _ =>
    have hu := hs.setThread (y := .handling fd (s.state fd)) hk nofun rfl
    exact ⟨hu.many, hu.alive, hu.watch⟩
  | wake hk => exact hs.setThread hk nofun rfl
  | @poll k ready hk _ =>
    have hu := hs.setThread (y := .polled ready.length) hk nofun rfl
    exact ⟨hu.many, hu.alive, hu.watch⟩
  | pollEnd _ he => exact absurd (he.symm.trans hend) (by simp)
  | @relock u k num fd wake hu hk _ =>
    have hw := woken_of_signal hu
    have hend' : s.endFlag = false := by
      rw [hw.fields] at hend
      exact hend
    have hv := (hs.woken hw).setThread (y := .handling fd (u.state fd)) hk nofun rfl
    refine ⟨hv.many, hv.alive, fun _ => ?_⟩
    have hcount := countP_setThread (p := Thread.waits) (y := .handling fd (u.state fd)) hk
    have hlen : (u.setThread k (.handling fd (u.state fd))).threads.length = u.threads.length :=
      List.length_set
    have := hs.signal hp hend' hu
    simp only [Thread.waits, Bool.toNat_false, Nat.add_zero] at hcount
    show (u.setThread k (.handling fd (u.state fd))).threads.countP Thread.waits + 2 ≤
      (u.setThread k (.handling fd (u.state fd))).threads.length
    omega
  | finish hk => exact hs.setThread hk nofun rfl
  | @handled k fd handler ok hk =>
    have hu := hs.setThread (y := .entering) hk nofun rfl
    exact ⟨hu.many, hu.alive, hu.watch⟩
  | @thrown k fd handler hk =>
    have hu := hs.setThread (y := .entering) hk nofun rfl
    exact ⟨hu.many, hu.alive, hu.watch⟩

theorem endFlag_step (h : s.step a = some t) (hend : s.endFlag = true) : t.endFlag = true := by
  cases step_moves h with
  | submit hu =>
    rw [(woken_of_signal hu).fields]
    exact hend
  | @start u k wake task rest hu _ _ _ _ =>
    rw [(woken_start hu).fields]
    exact hend
  | relock hu =>
    rw [(woken_of_signal hu).fields]
    exact hend
  | endAll => rfl
  | add | addThread | leave | wait | startPolling | take | wake | poll | pollEnd | finish
  | handled | thrown => exact hend

theorem staffed_init {n : ℕ} (hn : 2 ≤ n) : Staffed (init n) where
  many := by simpa [init] using hn
  alive := by simp [init]
  watch _ := by simpa [init, List.countP_replicate, Thread.waits] using hn

theorem run_staffed {n : ℕ} (h : Run step Free (init n) as s) (hn : 2 ≤ n)
    (hend : s.endFlag = false) : Staffed s := by
  have hinv := h.inv (I := fun s => Polls s ∧ (s.endFlag = false → Staffed s))
    (fun s a t hs _ hst => ⟨hs.1.step hst, fun ht => ?_⟩) ⟨polls_init n, fun _ => staffed_init hn⟩
  · exact hinv.2 hend
  · refine (hs.2 ?_).step hs.1 ht hst
    by_contra hs'
    rw [endFlag_step hst (by simpa using hs')] at ht
    cases ht

theorem awake_of (hs : Staffed s) (hk : s.threads[k]? = some x) (hw : x.waits = false)
    (hp : x.isPoller = false) : x.awake = true := by
  cases x with
  | entering | running _ | handling _ _ => rfl
  | waiting => cases hw
  | polling | polled _ => cases hp
  | ended => exact absurd (List.mem_of_getElem? hk) hs.alive

theorem Staffed.exists_awake (hs : Staffed s) (hp : Polls s) (hq : s.taskQueue ≠ []) :
    ∃ (k : ℕ) (x : Thread), s.threads[k]? = some x ∧ x.awake = true := by
  have hwatch := hs.watch (.inr hq)
  have hpollers := hp.pollers
  obtain ⟨k, x, hk, hw, hx⟩ := Counting.exists_of_countP_lt
    (p := Thread.waits) (r := Thread.isPoller) (l := s.threads) (by omega)
  exact ⟨k, x, hk, awake_of hs hk hw hx⟩

theorem Staffed.exists_two_awake (hs : Staffed s) (hp : Polls s) (hpol : s.pollable = true) :
    ∃ (j k : ℕ) (x y : Thread), j ≠ k ∧ s.threads[j]? = some x ∧ s.threads[k]? = some y ∧
      x.awake = true ∧ y.awake = true := by
  obtain ⟨j, k, x, y, hne, hj, hk, hx, hy⟩ :=
    Counting.exists_two_of_countP (hs.watch (.inl hpol))
  have hnone := List.countP_eq_zero.1 (hp.pollable hpol).1
  refine ⟨j, k, x, y, hne, hj, hk, awake_of hs hj hx ?_, awake_of hs hk hy ?_⟩
  · simpa using hnone x (List.mem_of_getElem? hj)
  · simpa using hnone y (List.mem_of_getElem? hk)

/-- No wakeup is lost: with two threads or more, a task in the queue has one that comes to look at
it without being woken, and two do where nobody is away for events. -/
theorem task_awake {n : ℕ} (h : Run step Free (init n) as s) (hn : 2 ≤ n)
    (hend : s.endFlag = false) :
    (s.taskQueue ≠ [] → ∃ (k : ℕ) (x : Thread), s.threads[k]? = some x ∧ x.awake = true) ∧
      (s.pollable = true → ∃ (j k : ℕ) (x y : Thread), j ≠ k ∧ s.threads[j]? = some x ∧
        s.threads[k]? = some y ∧ x.awake = true ∧ y.awake = true) :=
  ⟨(run_staffed h hn hend).exists_awake (run_polls h),
    (run_staffed h hn hend).exists_two_awake (run_polls h)⟩

theorem task_awake_shift : ∃ s, Run step Free (init 2) shift s ∧
    ∃ (k : ℕ) (x : Thread), s.threads[k]? = some x ∧ x.awake = true := by
  obtain ⟨s, hs, -, hq, -, -, hend⟩ := shift_run
  exact ⟨s, hs, (task_awake hs (Nat.le_refl 2) hend).1 (by rw [hq]; exact List.cons_ne_nil _ _)⟩

/-- What threads do by themselves, without an event. -/
def Own (_ : Core) : Act → Prop
  | .enter _ _ | .finish _ | .handled _ _ => True
  | .submit _ | .add _ _ _ | .addThread | .endAll | .wake _ | .poll _ _ | .pollEnd _ | .relock _ _
  | .thrown _ => False

/-- Only where thread `k` is and what the edge has of an fd may differ. -/
structure Freed (k : ℕ) (s t : Core) : Prop where
  threads : t.threads = s.threads.set k .entering
  queue : t.taskQueue = s.taskQueue
  started : t.started = s.started
  pollable : t.pollable = s.pollable
  endFlag : t.endFlag = s.endFlag
  off : t.off = s.off
  num : t.num = s.num

/-- A thread that is not waiting nor away gets to the head of the loop. -/
theorem exists_freed (hk : s.threads[k]? = some x) (hx : x.awake = true) :
    ∃ as t, Run step Own s as t ∧ Freed k s t := by
  cases x with
  | entering =>
    refine ⟨[], s, .nil s, ?_, rfl, rfl, rfl, rfl, rfl, rfl⟩
    obtain ⟨hlt, hget⟩ := List.getElem?_eq_some_iff.1 hk
    rw [← hget, List.set_getElem_self]
  | running task =>
    refine ⟨[.finish k], s.setThread k .entering, .cons trivial ?_ (.nil _), ?_⟩
    · simp only [step, hk]
    · exact ⟨rfl, rfl, rfl, rfl, rfl, rfl, rfl⟩
  | handling fd handler =>
    refine ⟨[.handled k true], (s.shotReactivate fd true).setThread k .entering,
      .cons trivial ?_ (.nil _), ?_⟩
    · simp only [step, hk]
    · exact ⟨rfl, rfl, rfl, rfl, rfl, rfl, rfl⟩
  | waiting | polling | polled _ | ended => cases hx

theorem Freed.self (h : Freed k s t) (hk : s.threads[k]? = some x) :
    t.threads[k]? = some .entering := by
  rw [h.threads, List.getElem?_set_self (List.getElem?_eq_some_iff.1 hk).1]

theorem Freed.other {j : ℕ} (h : Freed k s t) (hne : k ≠ j) (hj : s.threads[j]? = some y) :
    t.threads[j]? = some y := by
  rw [h.threads, List.getElem?_set_ne hne, hj]

/-- There is somebody to wake, or nobody waits. -/
theorem exists_signal (s : Core) : ∃ wake u, s.signal wake = some u := by
  by_cases hw : Thread.waiting ∈ s.threads
  · obtain ⟨j, hj⟩ := List.mem_iff_getElem?.1 hw
    exact ⟨j, _, by rw [signal, if_pos hw, if_pos hj]⟩
  · exact ⟨0, s, by rw [signal, if_neg hw]⟩

/-- A thread at the head of the loop that does not go for events starts a task. -/
theorem exists_start {task : ℕ} {rest : List ℕ} (hk : s.threads[k]? = some .entering)
    (hend : s.endFlag = false) (hq : s.taskQueue = task :: rest)
    (hloop : taskQueueLimit < s.taskQueue.length ∨ s.pollable = false) :
    ∃ wake t, s.step (.enter k wake) = some t ∧ t.started = s.started ++ [task] := by
  obtain ⟨wake, u, hu⟩ := exists_signal { s with taskQueue := rest, started := s.started ++ [task] }
  have hmap : ∀ wake, s.step (.enter k wake) =
      ((if rest = [] then some { s with taskQueue := rest, started := s.started ++ [task] }
        else { s with taskQueue := rest, started := s.started ++ [task] }.signal wake).map
          (·.setThread k (.running task))) := by
    intro wake
    simp only [step, if_pos hk, Core.enter, if_pos hloop, hend]
    rw [hq]
    rfl
  by_cases hrest : rest = []
  · exact ⟨0, _, by rw [hmap, if_pos hrest]; rfl, rfl⟩
  · refine ⟨wake, u.setThread k (.running task), by rw [hmap, if_neg hrest, hu]; rfl, ?_⟩
    rw [(woken_of_signal hu).fields]
    rfl

/-- Where a thread is away for events, another one starts the task. -/
theorem exists_started_of_away {task : ℕ} {rest : List ℕ} (hk : s.threads[k]? = some x)
    (hx : x.awake = true) (hend : s.endFlag = false) (hq : s.taskQueue = task :: rest)
    (hloop : taskQueueLimit < s.taskQueue.length ∨ s.pollable = false) :
    ∃ as t, Run step Own s as t ∧ t.started = s.started ++ [task] := by
  obtain ⟨as, u, hu, hf⟩ := exists_freed hk hx
  obtain ⟨wake, t, ht, hst⟩ := exists_start (hf.self hk) (hf.endFlag.trans hend)
    (hf.queue.trans hq) (by rwa [hf.queue, hf.pollable])
  refine ⟨as ++ [.enter k wake], t, hu.append ?_, hst.trans (by rw [hf.started])⟩
  exact .cons (a := Act.enter k wake) trivial ht (.nil t)

/-- Two threads that are not away start the task: one takes the events that are left, goes for more,
and then the other comes to the queue. -/
theorem exists_started_of_two {task : ℕ} {rest : List ℕ} {j : ℕ} (hne : j ≠ k) :
    ∀ (n : ℕ) {s : Core} {x y : Thread}, s.num - s.off ≤ n → Polls s → s.pollable = true →
      s.endFlag = false → s.taskQueue = task :: rest → s.threads[j]? = some x → x.awake = true →
      s.threads[k]? = some y → y.awake = true →
      ∃ as t, Run step Own s as t ∧ t.started = s.started ++ [task] := by
  intro n
  induction n with
  | zero =>
    intro s x y hn hs hpol hend hq hj hx hk hy
    obtain ⟨as, u, hu, hf⟩ := exists_freed hj hx
    have hju := hf.self hj
    have hku := hf.other hne hk
    by_cases hlimit : taskQueueLimit < s.taskQueue.length
    · exact exists_started_of_away hj hx hend hq (.inl hlimit)
    · have hoff : u.num = u.off := by
        have := (hs.pollable hpol).2.2
        rw [hf.num, hf.off]
        omega
      have hloop : ¬ (taskQueueLimit < u.taskQueue.length ∨ u.pollable = false) := by
        rw [hf.queue, hf.pollable, hpol]
        simpa using hlimit
      have hstep : u.step (.enter j 0) =
          some { u.setThread j .polling with pollable := false } := by
        simp only [step, if_pos hju, Core.enter, if_neg hloop, if_pos hoff]
      obtain ⟨bs, t, ht, hst⟩ := exists_started_of_away (k := k)
        (s := { u.setThread j .polling with pollable := false })
        (by rw [← hku]; exact List.getElem?_set_ne hne) hy (hf.endFlag.trans hend)
        (hf.queue.trans hq) (.inr rfl)
      refine ⟨as ++ .enter j 0 :: bs, t, hu.append (.cons trivial hstep ht), hst.trans ?_⟩
      exact congrArg (· ++ [task]) hf.started
  | succ n ih =>
    intro s x y hn hs hpol hend hq hj hx hk hy
    by_cases hoff : s.num = s.off
    · exact ih (by omega) hs hpol hend hq hj hx hk hy
    · obtain ⟨as, u, hu, hf⟩ := exists_freed hj hx
      have hju := hf.self hj
      have hku := hf.other hne hk
      by_cases hlimit : taskQueueLimit < s.taskQueue.length
      · exact exists_started_of_away hj hx hend hq (.inl hlimit)
      · have hpu : Polls u := hu.inv (fun _ _ _ hs _ hst => hs.step hst) hs
        obtain ⟨-, hlen, hle⟩ := hpu.pollable (hf.pollable.trans hpol)
        have hne' : u.num ≠ u.off := by rwa [hf.num, hf.off]
        have hloop : ¬ (taskQueueLimit < u.taskQueue.length ∨ u.pollable = false) := by
          rw [hf.queue, hf.pollable, hpol]
          simpa using hlimit
        obtain ⟨fd, hfd⟩ : ∃ fd, u.backlog[u.off]? = some fd :=
          ⟨_, List.getElem?_eq_getElem (by omega)⟩
        have hstep : u.step (.enter j 0) = some { u.setThread j (.handling fd (u.state fd)) with
            off := u.off + 1, handed := u.handed ++ [fd] } := by
          simp only [step, if_pos hju, Core.enter, if_neg hloop, if_neg hne', Core.take, hfd]
          rfl
        obtain ⟨bs, t, ht, hst⟩ := ih (x := .handling fd (u.state fd)) (y := y)
          (by show u.num - (u.off + 1) ≤ n; rw [hf.num, hf.off]; omega)
          (hpu.step hstep) (hf.pollable.trans hpol) (hf.endFlag.trans hend) (hf.queue.trans hq)
          (List.getElem?_set_self (List.getElem?_eq_some_iff.1 hju).1) rfl
          (by rw [← hku]; exact List.getElem?_set_ne hne) hy
        refine ⟨as ++ .enter j 0 :: bs, t, hu.append (.cons trivial hstep ht), hst.trans ?_⟩
        exact congrArg (· ++ [task]) hf.started

/-- No deadlock: with two threads or more, wherever they are, they can come to start the task at the
head of the queue by themselves, without any event. -/
theorem exists_started {n : ℕ} {task : ℕ} {rest : List ℕ} (h : Run step Free (init n) as s)
    (hn : 2 ≤ n) (hend : s.endFlag = false) (hq : s.taskQueue = task :: rest) :
    ∃ bs t, Run step Own s bs t ∧ t.started = s.started ++ [task] := by
  have hs := run_staffed h hn hend
  have hp := run_polls h
  cases hpol : s.pollable with
  | false =>
    obtain ⟨k, x, hk, hx⟩ := hs.exists_awake hp (hq ▸ List.cons_ne_nil _ _)
    exact exists_started_of_away hk hx hend hq (.inr hpol)
  | true =>
    obtain ⟨j, k, x, y, hne, hj, hk, hx, hy⟩ := hs.exists_two_awake hp hpol
    exact exists_started_of_two hne _ (Nat.le_refl _) hp hpol hend hq hj hx hk hy

theorem exists_started_shift : ∃ s, Run step Free (init 2) shift s ∧
    ∃ bs t, Run step Own s bs t ∧ t.started = [0] := by
  obtain ⟨s, hs, -, hq, hstarted, -, hend⟩ := shift_run
  obtain ⟨bs, t, ht, hst⟩ := exists_started hs (Nat.le_refl 2) hend hq
  exact ⟨s, hs, bs, t, ht, by rw [hst, hstarted, List.nil_append]⟩

/-- Thread `k` acts, and whoever submits tasks and adds handlers. -/
def Only (k : ℕ) (_ : Core) : Act → Prop
  | .submit _ | .add _ _ _ => True
  | .enter j _ | .wake j | .poll j _ | .relock j _ | .finish j | .handled j _ | .thrown j => j = k
  | .addThread | .endAll | .pollEnd _ => False

/-- No other thread waits or is away for events: it is in a task or a handler, or about to look at
the queue. -/
def Occupied (k : ℕ) (s : Core) : Prop :=
  ∀ j : ℕ, j ≠ k → ∀ x ∈ s.threads[j]?, x.waits = false ∧ x.isPoller = false

theorem Occupied.setThread (hs : Occupied k s) (y : Thread) : Occupied k (s.setThread k y) := by
  intro j hj x hx
  obtain ⟨rfl, -⟩ | ⟨-, hx⟩ := setThread_getElem hx
  · exact absurd rfl hj
  · exact hs j hj x hx

theorem Occupied.woken (hs : Occupied k s) (h : Woken s u) : Occupied k u := by
  intro j hj x hx
  cases h with
  | same => exact hs j hj x hx
  | @woke i hi =>
    obtain ⟨rfl, rfl⟩ | ⟨-, hx⟩ := setThread_getElem hx
    · exact ⟨rfl, rfl⟩
    · exact hs j hj x hx

/-- The one that is left is never at the head of the loop while it is away. -/
theorem Occupied.pollable (hs : Occupied k s) (hp : Polls s) (hend : s.endFlag = false)
    (hk : s.threads[k]? = some .entering) : s.pollable = true := by
  by_contra hpol
  have hone := (hp.away (by simpa using hpol)).2 hend
  obtain ⟨x, hx, hpoll⟩ := List.countP_pos_iff.1 (hone ▸ Nat.one_pos : 0 < _)
  obtain ⟨j, hj⟩ := List.mem_iff_getElem?.1 hx
  by_cases hjk : j = k
  · subst hjk
    rw [hk] at hj
    cases hj
    cases hpoll
  · exact absurd ((hs j hjk x hj).2.symm.trans hpoll) (by simp)

theorem Occupied.step (hs : Occupied k s) (hp : Polls s) (hend : s.endFlag = false)
    (hq : s.taskQueue.length ≤ taskQueueLimit) (ha : Only k s a) (h : s.step a = some t) :
    Occupied k t ∧ t.endFlag = false ∧ t.started = s.started := by
  cases step_moves h with
  | submit hu =>
    have hw := woken_of_signal hu
    have hocc := hs.woken hw
    rw [hw.fields] at hocc ⊢
    exact ⟨hocc, hend, rfl⟩
  | add _ => exact ⟨hs, hend, rfl⟩
  | addThread | endAll | pollEnd => exact ha.elim
  | leave _ he => exact absurd (he.symm.trans hend) (by simp)
  | wait hk hpol =>
    obtain rfl : _ = k := ha
    exact absurd (hpol.symm.trans (hs.pollable hp hend hk)) (by simp)
  | @start u j wake task rest hu hk hend' hloop _ =>
    obtain rfl : j = k := ha
    have hw := woken_start hu
    have hpol := (hs.woken hw).pollable (hp.woken hw) hend' hk
    rw [hw.fields] at hloop
    obtain hloop | hloop := hloop
    · exact absurd hq (Nat.not_le.2 hloop)
    · rw [hw.fields] at hpol
      exact absurd (hloop.symm.trans hpol) (by simp)
  | startPolling =>
    obtain rfl : _ = k := ha
    exact ⟨hs.setThread _, hend, rfl⟩
  | take =>
    obtain rfl : _ = k := ha
    exact ⟨hs.setThread _, hend, rfl⟩
  | wake =>
    obtain rfl : _ = k := ha
    exact ⟨hs.setThread _, hend, rfl⟩
  | poll =>
    obtain rfl : _ = k := ha
    exact ⟨hs.setThread _, hend, rfl⟩
  | relock hu =>
    obtain rfl : _ = k := ha
    have hw := woken_of_signal hu
    refine ⟨(hs.woken hw).setThread _, ?_⟩
    rw [hw.fields]
    exact ⟨hend, rfl⟩
  | finish =>
    obtain rfl : _ = k := ha
    exact ⟨hs.setThread _, hend, rfl⟩
  | handled =>
    obtain rfl : _ = k := ha
    exact ⟨hs.setThread _, hend, rfl⟩
  | thrown =>
    obtain rfl : _ = k := ha
    exact ⟨hs.setThread _, hend, rfl⟩

/-- One thread is no thread for the queue: while the others are in a task or a handler, the last one
looks after the events only, and starts none of the tasks as long as no more than
`MP_WAVY_TASK_QUEUE_LIMIT` are in the queue. -/
theorem started_of_occupied {n : ℕ} {bs : List Act} (h : Run step Free (init n) as s)
    (hend : s.endFlag = false) (hs : Occupied k s)
    (h' : Run step (fun u a => Only k u a ∧ u.taskQueue.length ≤ taskQueueLimit) s bs t) :
    t.started = s.started := by
  refine (h'.inv (I := fun u => Polls u ∧ u.endFlag = false ∧ Occupied k u ∧
    u.started = s.started) (fun u a v hu ha hst => ?_) ⟨run_polls h, hend, hs, rfl⟩).2.2.2
  obtain ⟨hp, hend, hocc, hstarted⟩ := hu
  obtain ⟨hocc', hend', hstarted'⟩ := hocc.step hp hend ha.2 ha.1 hst
  exact ⟨hp.step hst, hend', hocc', hstarted'.trans hstarted⟩

/-- While thread 1 is in a task, thread 0 goes back for events. -/
theorem handover_alone : ∃ s t, Run step Free (init 2) handover s ∧
    Run step (fun u a => Only 0 u a ∧ u.taskQueue.length ≤ taskQueueLimit) s
      [.submit 0, .handled 0 true, .enter 0 0] t ∧ Occupied 0 s ∧ s.endFlag = false ∧
      s.started = [0] ∧ t.threads = [.polling, .running 0] ∧ t.taskQueue = [1, 2] := by
  refine ⟨_, _, Machine.exec_run rfl, .cons ⟨trivial, by decide⟩ rfl (.cons ⟨rfl, by decide⟩ rfl
    (.cons ⟨rfl, by decide⟩ rfl (.nil _))), ?_, rfl, rfl, rfl, rfl⟩
  intro j hj x hx
  have hmem := List.mem_of_getElem? hx
  match j with
  | 0 => exact absurd rfl hj
  | 1 =>
    obtain rfl : Thread.running 0 = x := Option.some.inj hx
    exact ⟨rfl, rfl⟩
  | j + 2 => cases hx

theorem started_of_occupied_handover : ∃ s t, Run step Free (init 2) handover s ∧
    Run step (fun u a => Only 0 u a ∧ u.taskQueue.length ≤ taskQueueLimit) s
      [.submit 0, .handled 0 true, .enter 0 0] t ∧ t.started = [0] ∧ t.taskQueue = [1, 2] := by
  obtain ⟨s, t, hs, ht, hocc, hend, hstarted, -, hq⟩ := handover_alone
  exact ⟨s, t, hs, ht, (started_of_occupied hs hend hocc ht).trans hstarted, hq⟩

/-! ## The end -/

theorem not_waiting_step (hs : s.endFlag = true → Thread.waiting ∉ s.threads)
    (h : s.step a = some t) (hend : t.endFlag = true) : Thread.waiting ∉ t.threads := by
  have hset : s.endFlag = true → ∀ {k : ℕ} {y : Thread}, y ≠ .waiting →
      Thread.waiting ∉ s.threads.set k y := by
    intro he k y hy hm
    obtain hm | rfl := List.mem_or_eq_of_mem_set hm
    · exact hs he hm
    · exact hy rfl
  have hwoken : ∀ {u : Core}, Woken s u → u.endFlag = true → Thread.waiting ∉ u.threads := by
    intro u hw he hm
    rw [hw.fields] at he
    obtain ⟨j, hj⟩ := List.mem_iff_getElem?.1 hm
    exact hs he (List.mem_of_getElem? (hw.of_getElem hj nofun))
  cases step_moves h with
  | submit hu =>
    have hnone := hwoken (woken_of_signal hu)
    exact hnone hend
  | add _ => exact hs hend
  | addThread => simpa using hs hend
  | endAll =>
    simp only [broadcast, List.mem_map, not_exists, not_and]
    intro x _
    split_ifs with hx
    · exact nofun
    · exact hx
  | leave _ he => exact hset he nofun
  | wait _ _ he => exact absurd (he.symm.trans hend) (by simp)
  | start _ _ he => exact absurd (he.symm.trans hend) (by simp)
  | relock hu =>
    intro hm
    obtain hm | hm := List.mem_or_eq_of_mem_set hm
    · exact hwoken (woken_of_signal hu) hend hm
    · cases hm
  | startPolling => exact hset hend nofun
  | take => exact hset hend nofun
  | wake => exact hset hend nofun
  | poll => exact hset hend nofun
  | pollEnd _ he => exact hset he nofun
  | finish => exact hset hend nofun
  | handled => exact hset hend nofun
  | thrown => exact hset hend nofun

/-- The steps of the threads that are left when no more events come. -/
def winds : Act → Bool
  | .enter _ _ | .wake _ | .pollEnd _ | .relock _ _ | .finish _ | .handled _ _ | .thrown _ => true
  | .submit _ | .add _ _ _ | .addThread | .endAll | .poll _ _ => false

/-- What holds from `end` on. -/
structure Ending (s : Core) : Prop where
  polls : Polls s
  endFlag : s.endFlag = true
  awake : Thread.waiting ∉ s.threads

theorem Ending.step (hs : Ending s) (h : s.step a = some t) : Ending t :=
  have hend := endFlag_step h hs.endFlag
  ⟨hs.polls.step h, hend, not_waiting_step (fun _ => hs.awake) h hend⟩

theorem run_ending {n : ℕ} (h : Run step Free (init n) as s) (hend : s.endFlag = true) :
    Ending s := by
  have hawake := h.inv (I := fun s => s.endFlag = true → Thread.waiting ∉ s.threads)
    (fun _ _ _ hs _ hst hend => not_waiting_step hs hst hend) (by simp [init])
  exact ⟨run_polls h, hend, hawake hend⟩

/-- No more events are reported, and no threads added. -/
def Quiet (_ : Core) : Act → Prop
  | .poll _ _ | .addThread => False
  | .submit _ | .add _ _ _ | .endAll | .enter _ _ | .wake _ | .pollEnd _ | .relock _ _ | .finish _
  | .handled _ _ | .thrown _ => True

/-- Both threads leave while two tasks are in the queue. -/
theorem shift_end : ∃ s t, Run step Free (init 2) (shift ++ [.endAll]) s ∧ s.endFlag = true ∧
    Run step Quiet s [.enter 1 0, .pollEnd 0] t ∧ s.started = [] ∧ s.due = [] ∧
      s.threads.length = 2 :=
  ⟨_, _, Machine.exec_run rfl, rfl, .cons trivial rfl (.cons trivial rfl (.nil _)), rfl, rfl, rfl⟩

/-- The steps that the threads can take until they are all ended. -/
def potential (s : Core) : ℕ := 2 * s.due.length + (s.threads.map Thread.left).sum

theorem left_setThread (hk : s.threads[k]? = some x) (y : Thread) :
    ((s.setThread k y).threads.map Thread.left).sum + x.left =
      (s.threads.map Thread.left).sum + y.left :=
  Counting.sum_map_set Thread.left hk

theorem woken_of_not_waiting (h : Woken s u) (hs : Thread.waiting ∉ s.threads) : u = s := by
  cases h with
  | same => rfl
  | woke hj => exact absurd (List.mem_of_getElem? hj) hs

theorem potential_set (hk : s.threads[k]? = some x) (hlt : y.left + 1 ≤ x.left)
    (ht : t.threads = (s.setThread k y).threads) (hd : t.due = s.due) :
    t.potential + 1 ≤ s.potential := by
  have := left_setThread hk y
  unfold potential
  rw [ht, hd]
  omega

theorem potential_taken {fd : ℕ} {handler : Option ℕ} (hk : s.threads[k]? = some x)
    (hx : 2 ≤ x.left)
    (ht : t.threads = (s.setThread k (.handling fd handler)).threads) (hd : s.due = fd :: t.due) :
    t.potential + 1 ≤ s.potential := by
  have := left_setThread hk (.handling fd handler)
  unfold potential
  rw [ht, hd, List.length_cons]
  simp only [Thread.left] at this hx ⊢
  omega

theorem Ending.potential_step (hs : Ending s) (ha : Quiet s a) (h : s.step a = some t) :
    t.potential + (winds a).toNat ≤ s.potential := by
  obtain ⟨hpolls, hend, hnone⟩ := hs
  cases step_moves h with
  | submit hu =>
    obtain rfl := woken_of_not_waiting (woken_of_signal hu) hnone
    exact Nat.le_refl _
  | add => exact Nat.le_refl _
  | addThread | poll => exact ha.elim
  | endAll =>
    have hmap : { s with endFlag := true }.broadcast.threads = s.threads := by
      refine (List.map_congr_left fun x hx => if_neg ?_).trans (List.map_id _)
      rintro rfl
      exact hnone hx
    have hdue : { s with endFlag := true }.broadcast.due = s.due :=
      due_congr rfl rfl rfl (countP_broadcast rfl)
    unfold potential
    rw [hmap, hdue]
    exact Nat.le_refl _
  | leave hk _ => exact potential_set hk (by decide) rfl (due_setThread hk rfl)
  | wait _ _ he => exact absurd (he.symm.trans hend) (by simp)
  | @start u k wake task rest hu _ he _ _ =>
    rw [(woken_start hu).fields] at he
    exact absurd (he.symm.trans hend) (by simp)
  | @startPolling k wake hk _ hp hnum =>
    obtain ⟨hdue, hdue'⟩ := due_startPolling (k := k) hpolls hp hnum
    exact potential_set hk (by decide) rfl (hdue'.trans hdue.symm)
  | take hk _ hp _ hfd => exact potential_taken hk (by decide) rfl (due_take hp hfd)
  | wake hk => exact absurd (List.mem_of_getElem? hk) hnone
  | pollEnd hk => exact potential_set hk (by decide) rfl (due_setThread hk rfl)
  | relock hu hk hfd =>
    obtain rfl := woken_of_not_waiting (woken_of_signal hu) hnone
    exact potential_taken hk (Nat.le_succ 2) (by rfl) (due_relock hpolls hk hfd)
  | @finish k task hk =>
    exact potential_set (y := .entering) hk (Nat.le_refl 3) rfl (due_setThread hk rfl)
  | @handled k fd handler ok hk =>
    refine potential_set (y := .entering) hk (Nat.le_refl 3) rfl ?_
    exact (due_congr rfl rfl rfl rfl).trans (due_setThread (y := .entering) hk rfl)
  | @thrown k fd handler hk =>
    refine potential_set (y := .entering) hk (Nat.le_refl 3) rfl ?_
    exact (due_congr rfl rfl rfl rfl).trans (due_setThread (y := .entering) hk rfl)

/-- A thread that is not ended can go on. -/
theorem exists_winds (hs : Polls s) (hend : s.endFlag = true) (hk : s.threads[k]? = some x)
    (hx : x ≠ .ended) : ∃ a, winds a = true ∧ (s.step a).isSome := by
  cases x with
  | entering =>
    refine ⟨.enter k 0, rfl, ?_⟩
    by_cases hloop : taskQueueLimit < s.taskQueue.length ∨ s.pollable = false
    · simp [step, hk, enter, hloop, hend]
    · by_cases hoff : s.num = s.off
      · simp [step, hk, enter, hloop, hoff]
      · rw [not_or, Bool.not_eq_false] at hloop
        obtain ⟨-, hlen, hle⟩ := hs.pollable hloop.2
        have hlt : s.off < s.backlog.length := by omega
        simp [step, hk, enter, hloop, hoff, take, hlt]
  | waiting => exact ⟨.wake k, rfl, by simp [step, hk]⟩
  | polling => exact ⟨.pollEnd k, rfl, by simp [step, hk, hend]⟩
  | polled num =>
    obtain ⟨wake, u, hu⟩ := exists_signal { s with off := 0, num, pollable := true }
    have hlt : u.off < u.backlog.length := by
      rw [(woken_of_signal hu).fields]
      exact List.length_pos_iff.2 (hs.polled k num hk).2
    exact ⟨.relock k wake, rfl, by simp [step, hk, relock, hu, take, hlt]⟩
  | running task => exact ⟨.finish k, rfl, by simp [step, hk]⟩
  | handling fd handler => exact ⟨.thrown k, rfl, by simp [step, hk]⟩
  | ended => exact absurd rfl hx

theorem potential_le (s : Core) : s.potential ≤ 2 * s.due.length + 3 * s.threads.length := by
  have hsum : (s.threads.map Thread.left).sum ≤ s.threads.length * 3 := by
    rw [← List.length_map Thread.left, ← Nat.nsmul_eq_mul]
    refine List.sum_le_card_nsmul _ 3 fun w hw => ?_
    obtain ⟨x, -, rfl⟩ := List.mem_map.1 hw
    cases x <;> simp [Thread.left]
  unfold potential
  omega

/-- After `end` the threads take a bounded number of steps where no more events come, and one that
is not ended can always take the next. -/
theorem tally_winds_le {n : ℕ} {bs : List Act} (h : Run step Free (init n) as s)
    (hend : s.endFlag = true) (h' : Run step Quiet s bs t) :
    Machine.tally step (fun _ => winds) s bs ≤ 2 * s.due.length + 3 * s.threads.length ∧
      ((∀ x ∈ t.threads, x = .ended) ∨ ∃ a, winds a = true ∧ (t.step a).isSome) := by
  have hs := run_ending h hend
  have hstep : ∀ u a v, Ending u → Quiet u a → u.step a = some v →
      Ending v ∧ v.potential + (winds a).toNat ≤ u.potential + 0 :=
    fun _ _ _ hu ha hst => ⟨hu.step hst, hu.potential_step ha hst⟩
  have ht : Ending t := h'.inv (fun _ _ _ hu ha hst => (hstep _ _ _ hu ha hst).1) hs
  refine ⟨?_, ?_⟩
  · have hle := h'.tally_le potential (fun _ => 0) hstep hs
    rw [List.map_const', List.sum_replicate, nsmul_zero] at hle
    exact (Nat.le_add_left _ _).trans (hle.trans (potential_le s))
  · by_cases hall : ∀ x ∈ t.threads, x = .ended
    · exact .inl hall
    · obtain ⟨x, hx, hne⟩ : ∃ x ∈ t.threads, x ≠ .ended := by
        simpa using hall
      obtain ⟨k, hk⟩ := List.mem_iff_getElem?.1 hx
      exact .inr (exists_winds ht.polls ht.endFlag hk hne)

theorem tally_winds_le_shift : ∃ s t, Run step Free (init 2) (shift ++ [.endAll]) s ∧
    Run step Quiet s [.enter 1 0, .pollEnd 0] t ∧
      Machine.tally step (fun _ => winds) s [.enter 1 0, .pollEnd 0] ≤ 6 := by
  obtain ⟨s, t, hs, hend, ht, -, hdue, hlen⟩ := shift_end
  have hle := (tally_winds_le hs hend ht).1
  rw [hdue, hlen] at hle
  exact ⟨s, t, hs, ht, hle⟩

end Core

end Kumofs.Wavy
