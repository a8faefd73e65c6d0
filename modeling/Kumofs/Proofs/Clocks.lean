import Kumofs.Proofs.ClockOrder
import Kumofs.System.Clocks

/-!
# What happens before has a smaller clocktime

A node's clock is past every clocktime of its past, but for one way in which it may be level with
one: a `ReplicateSet` moves the clock of its receiver up to that of the clocktime it carries and
not past it, and from there the same clock may go on to others. Where no node issues a clocktime
at such a clock, and the clocks keep out of one zone, clocktimes follow what happens before.
-/

namespace Kumofs.Clocks

open Machine

variable {ν : Type*} [DecidableEq ν] {s : Clocks ν} {n : ν} {x : Node} {k : Zone} {t : UInt32}
  {a : ClockTime} {c c' : UInt32} {p p' : Prop}

theorem setNode_self : (s.setNode n x).node n = x := Function.update_self ..

theorem setNode_ne {n' : ν} (h : n' ≠ n) : (s.setNode n x).node n' = s.node n' :=
  Function.update_of_ne h ..

/-- The clocks taken keep out of zone `k`, and no clocktime is issued at a clock that was received
as that of another one. -/
def Guard (k : Zone) (s : Clocks ν) : Act ν → Prop
  | .issue n => zone ((s.node n).logic.clock + 1) ≠ k ∧ (s.node n).logic.clock ∉ (s.node n).taken
  | .send n => zone ((s.node n).logic.clock + 1) ≠ k
  | .receive _ _ => True

instance (k : Zone) (s : Clocks ν) : ∀ a, Decidable (s.Guard k a)
  | .issue _ => inferInstanceAs (Decidable (_ ∧ _))
  | .send _ => inferInstanceAs (Decidable (_ ≠ _))
  | .receive _ _ => inferInstanceAs (Decidable True)

/-- Clocktime `a` is one that clock `c` is past or, where `p`, level with. -/
structure Behind (k : Zone) (t : UInt32) (a : ClockTime) (c : UInt32) (p : Prop) : Prop where
  time : a.time = t
  zone : zone a.clock ≠ k
  clock : clockLess a.clock c = true ∨ p ∧ a.clock = c

theorem Behind.mono (h : Behind k t a c p) (hp : p → p') : Behind k t a c p' :=
  ⟨h.time, h.zone, h.clock.imp_right fun h => ⟨hp h.1, h.2⟩⟩

/-- A clock is left behind by one past it. -/
theorem Behind.of_less (h : Behind k t a c p) (hc : Kumofs.zone c ≠ k) (hc' : Kumofs.zone c' ≠ k)
    (hlt : clockLess c c' = true) : Behind k t a c' p' := by
  refine ⟨h.time, h.zone, .inl ?_⟩
  rcases h.clock with hac | ⟨-, hac⟩
  · exact clockLess_trans h.zone hc hc' hac hlt
  · rw [hac]
    exact hlt

/-- What a clock is past, a clock that is not before it is. -/
theorem Behind.of_le (h : Behind k t a c p) (hc : Kumofs.zone c ≠ k) (hc' : Kumofs.zone c' ≠ k)
    (hle : clockLess c' c = false) (hp : c' = c → p → p') : Behind k t a c' p' := by
  cases hlt : clockLess c c' with
  | true => exact h.of_less hc hc' hlt
  | false =>
    have hcc : c' = c := clockLess_total hle hlt
    rw [hcc]
    exact h.mono (hp hcc)

/-- At equal times clocks decide. -/
theorem Behind.lt (h : Behind k t a c p) (hp : ¬ p) : a < .mk' c t := by
  have hnear : near a.time (ClockTime.mk' c t).time = true := by
    rw [ClockTime.time_mk', h.time]
    exact near_refl t
  rw [ClockTime.lt_iff_of_near hnear, ClockTime.clock_mk']
  exact h.clock.resolve_right fun h => hp h.1

structure NodeInv (k : Zone) (t : UInt32) (x : Node) : Prop where
  time : x.logic.time = t
  zone : zone x.logic.clock ≠ k
  past : ∀ a ∈ x.past, Behind k t a x.logic.clock (x.logic.clock ∈ x.taken)

structure MessageInv (k : Zone) (t : UInt32) (m : Message) : Prop where
  zone : zone m.clock ≠ k
  past : ∀ a ∈ m.past, Behind k t a m.clock (m.taken = true)

structure Inv (k : Zone) (t : UInt32) (s : Clocks ν) : Prop where
  node : ∀ n, NodeInv k t (s.node n)
  messages : ∀ m ∈ s.messages, MessageInv k t m
  ordered : s.Ordered

theorem Inv.node_setNode (h : Inv k t s) (hx : NodeInv k t x) (n' : ν) :
    NodeInv k t ((s.setNode n x).node n') := by
  by_cases hn : n' = n
  · subst hn
    rw [setNode_self]
    exact hx
  · rw [setNode_ne hn]
    exact h.node n'

/-- The clock that is taken is left behind with all of the past. -/
theorem NodeInv.incr (h : NodeInv k t x) (hz : Kumofs.zone (x.logic.clock + 1) ≠ k) :
    NodeInv k t { x with logic := { x.logic with clock := x.logic.clock + 1 } } :=
  ⟨h.time, hz, fun a ha => (h.past a ha).of_less h.zone hz (clockLess_succ h.zone hz)⟩

theorem NodeInv.issue (h : NodeInv k t x) (hz : Kumofs.zone (x.logic.clock + 1) ≠ k) :
    NodeInv k t { x with
      logic := x.logic.clockIncrClocktime.2
      past := x.logic.clockIncrClocktime.1 :: x.past } := by
  refine ⟨h.time, hz, fun a ha => ?_⟩
  rcases List.mem_cons.1 ha with rfl | ha
  · have hclock : x.logic.clockIncrClocktime.1.clock = x.logic.clock := ClockTime.clock_mk' ..
    refine ⟨(ClockTime.time_mk' ..).trans h.time, ?_, .inl ?_⟩
    · rw [hclock]
      exact h.zone
    · rw [hclock]
      exact clockLess_succ h.zone hz
  · exact (h.incr hz).past a ha

theorem NodeInv.receive (h : NodeInv k t x) {m : Message} (hm : MessageInv k t m) :
    NodeInv k t
      { logic := x.logic.clockUpdate m.clock
        past := m.past ++ x.past
        taken := if m.taken then m.clock :: x.taken else x.taken } := by
  have hz : Kumofs.zone (x.logic.clockUpdate m.clock).clock ≠ k := by
    rcases ClockLogic.clockUpdate_eq (c := x.logic) (o := m.clock) with he | he
    · rw [he]
      exact h.zone
    · rw [he]
      exact hm.zone
  refine ⟨ClockLogic.clockUpdate_time.trans h.time, hz, fun a ha => ?_⟩
  rcases List.mem_append.1 ha with ha | ha
  · refine (hm.past a ha).of_le hm.zone hz ClockLogic.clockUpdate_not_less fun he ht => ?_
    simp only []
    rw [if_pos ht, he]
    exact List.mem_cons_self
  · refine (h.past a ha).of_le h.zone hz ClockLogic.clockUpdate_not_less_self fun he ht => ?_
    simp only []
    rw [he]
    split_ifs
    · exact List.mem_cons_of_mem _ ht
    · exact ht

theorem Inv.step_issue (h : Inv k t s) (hz : zone ((s.node n).logic.clock + 1) ≠ k)
    (ht : (s.node n).logic.clock ∉ (s.node n).taken) {s' : Clocks ν}
    (hs : s.step (.issue n) = some s') : Inv k t s' := by
  have hn := h.node n
  have hclock : (s.node n).logic.clockIncrClocktime.1.clock = (s.node n).logic.clock :=
    ClockTime.clock_mk' ..
  simp only [step, Option.some.injEq] at hs
  subst hs
  refine ⟨h.node_setNode (hn.issue hz), ?_, ?_⟩
  · intro m hm
    rcases List.mem_append.1 hm with hm | hm
    · exact h.messages m hm
    · rw [List.mem_singleton.1 hm]
      refine ⟨by rw [hclock]; exact hn.zone, fun a ha => ?_⟩
      simp only [hclock]
      rcases List.mem_cons.1 ha with rfl | ha
      · exact ⟨(ClockTime.time_mk' ..).trans hn.time, by rw [hclock]; exact hn.zone,
          .inr ⟨trivial, hclock⟩⟩
      · exact (hn.past a ha).mono fun _ => trivial
  · intro i hi a ha
    rcases List.mem_append.1 hi with hi | hi
    · exact h.ordered i hi a ha
    · rw [List.mem_singleton.1 hi] at ha ⊢
      have hlt := (hn.past a ha).lt ht
      rw [← hn.time] at hlt
      exact hlt

theorem Inv.step_send (h : Inv k t s) (hz : zone ((s.node n).logic.clock + 1) ≠ k)
    {s' : Clocks ν} (hs : s.step (.send n) = some s') : Inv k t s' := by
  have hn := h.node n
  simp only [step, Option.some.injEq] at hs
  subst hs
  refine ⟨h.node_setNode (hn.incr hz), ?_, h.ordered⟩
  intro m hm
  rcases List.mem_append.1 hm with hm | hm
  · exact h.messages m hm
  · rw [List.mem_singleton.1 hm]
    exact ⟨hn.zone, fun a ha => (hn.past a ha).mono decide_eq_true⟩

theorem Inv.step_receive (h : Inv k t s) {i : ℕ} {s' : Clocks ν}
    (hs : s.step (.receive n i) = some s') : Inv k t s' := by
  obtain ⟨m, hm, rfl⟩ := Option.map_eq_some_iff.1 hs
  have hm : MessageInv k t m := h.messages m (List.mem_of_getElem? hm)
  exact ⟨h.node_setNode ((h.node n).receive hm), h.messages, h.ordered⟩

theorem Inv.of_step {act : Act ν} {s' : Clocks ν} (h : Inv k t s) (hg : s.Guard k act)
    (hs : s.step act = some s') : Inv k t s' := by
  cases act with
  | issue n => exact h.step_issue hg.1 hg.2 hs
  | send n => exact h.step_send hg hs
  | receive n i => exact h.step_receive hs

omit [DecidableEq ν] in
theorem Inv.init {clock : ν → UInt32} (hz : ∀ n, Kumofs.zone (clock n) ≠ k) :
    Inv k t (Clocks.init clock t) where
  node n := ⟨rfl, hz n, fun _ ha => absurd ha List.not_mem_nil⟩
  messages _ hm := absurd hm List.not_mem_nil
  ordered _ hi := absurd hi List.not_mem_nil

/-- In runs whose clocks keep out of a zone, and in which no clocktime is issued at a clock that
was received as that of another one, what happens before has a smaller clocktime. -/
theorem ordered_of_run {clock : ν → UInt32} (hz : ∀ n, Kumofs.zone (clock n) ≠ k)
    {as : List (Act ν)} (h : Run step (Guard k) (Clocks.init clock t) as s) : s.Ordered :=
  (h.inv (fun _ _ _ hI hg hs => hI.of_step hg hs) (Inv.init hz)).ordered

/-- Node `true` issues a clocktime and then sends a message to `false`, which is behind and issues
one too. -/
def sendRun : List (Act Bool) := [.issue true, .send true, .receive false 1, .issue false]

theorem sendRun_ordered : ∃ s : Clocks Bool,
    Run step (Guard .high) (Clocks.init (fun n => if n then 5 else 0) 1000) sendRun s ∧
      s.issues = [⟨.mk' 5 1000, []⟩, ⟨.mk' 6 1000, [.mk' 5 1000]⟩] ∧ s.Ordered := by
  have hx : (execIf step (Guard .high) (Clocks.init (fun n => if n then 5 else 0) 1000)
      sendRun).map (·.issues) = some [⟨.mk' 5 1000, []⟩, ⟨.mk' 6 1000, [.mk' 5 1000]⟩] := by
    decide
  obtain ⟨s, hs, hi⟩ := Option.map_eq_some_iff.1 hx
  have hr := execIf_run hs
  exact ⟨s, hr, hi, ordered_of_run (by decide) hr⟩

/-- The message is the `ReplicateSet` of the clocktime: the second one issued is the first again. -/
def replicateRun : List (Act Bool) := [.issue true, .receive false 0, .issue false]

theorem replicateRun_not_ordered : ∃ s : Clocks Bool,
    Run step Free (Clocks.init (fun n => if n then 5 else 0) 1000) replicateRun s ∧
      s.issues = [⟨.mk' 5 1000, []⟩, ⟨.mk' 5 1000, [.mk' 5 1000]⟩] ∧ ¬ s.Ordered := by
  have hx : (exec step (Clocks.init (fun n => if n then 5 else 0) 1000) replicateRun).map
      (·.issues) = some [⟨.mk' 5 1000, []⟩, ⟨.mk' 5 1000, [.mk' 5 1000]⟩] := by
    decide
  obtain ⟨s, hs, hi⟩ := Option.map_eq_some_iff.1 hx
  refine ⟨s, exec_run hs, hi, fun hord => ?_⟩
  have hlt := hord ⟨.mk' 5 1000, [.mk' 5 1000]⟩ (by rw [hi]; decide) (.mk' 5 1000) (by decide)
  exact ClockTime.lt_irrefl _ hlt

end Kumofs.Clocks
