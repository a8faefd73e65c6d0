import Kumofs.Proofs.Handler
import Kumofs.Proofs.Storage
import Kumofs.System.Store

/-!
# What the writers of a key do to its entries

Every step leaves the entry of the key on a server as it is or puts the value of one handler, as a
register that keeps the newest value: at a replica because `Storage::update` and
`Storage::remove` compare, at the coordinator, where a `Set` and a `CAS` do not, as long as what
they overwrite is older.
-/

namespace Kumofs

open Newest Server

namespace Server

open Storage

variable {key : DBKey} {s s' : State} {h h' : Handler} {o : Option ℕ}

/-- The entry of the key on a server. -/
def State.entry (key : DBKey) (s : State) : Option Bytes := s.storage.db.lookup key.raw

namespace Handler

theorem clocktimeOf_rawVal (h : Handler) : clocktimeOf h.rawVal = h.ct := by
  unfold rawVal
  split
  · exact DBValue.clocktime_setClocktime _ _
  · exact DBValue.clocktime_setClocktime _ _
  · exact clocktimeOf_clocktimeTo _

theorem length_rawVal (h : Handler) : valueClocktimeSize ≤ h.rawVal.length := by
  have hv : ∀ v : DBValue, valueClocktimeSize ≤ v.raw.length := fun v =>
    le_trans (by decide) v.meta_le
  unfold rawVal
  split
  · exact hv _
  · exact hv _
  · exact le_of_eq (length_clocktimeTo _).symm

/-- The removal of the key by the handler does not collect the key's own tombstone. -/
def KeepsKey (key : DBKey) (s : State) (h : Handler) : Prop :=
  h.op.isDelete = true → s.storage.Keeps key.raw key.raw h.ct

instance (key : DBKey) (s : State) (h : Handler) : Decidable (h.KeepsKey key s) :=
  inferInstanceAs (Decidable (_ → _))

/-- The next step of the handler writes its value. -/
def lands (key : DBKey) (s : State) (h : Handler) : Bool :=
  (h.step key s).2.1.wrote && !h.wrote

/-- What it overwrites is older than its clocktime. -/
def WritesNewer (key : DBKey) (s : State) (h : Handler) : Prop :=
  h.lands key s = true → (s.entry key).all (clocktimeOf · < h.ct) = true

instance (key : DBKey) (s : State) (h : Handler) : Decidable (h.WritesNewer key s) :=
  inferInstanceAs (Decidable (_ → _))

theorem Moves.entry (m : Moves key s h s' h' o) (w : h.Wf) (ho : HasClocktime (s.entry key))
    (hk : h.pc = .apply → h.KeepsKey key s) (hn : (h'.wrote && !h.wrote) = true →
      (s.entry key).all (clocktimeOf · < h.ct) = true) :
    s'.entry key = if h'.wrote && !h.wrote then put clocktimeOf (s.entry key) h.rawVal
      else s.entry key := by
  have hput : (s.entry key).all (clocktimeOf · < h.ct) = true →
      put clocktimeOf (s.entry key) h.rawVal = some h.rawVal := by
    intro hall
    unfold put
    rw [clocktimeOf_rawVal, hall, if_pos rfl]
  cases m with
  | refused => simp [respond]
  | computed => simp
  | stampedSet => simp [prepare, State.entry]
  | stamped => simp [State.entry]
  | idle => simp
  | casDone hp hop hr =>
    have hw := (w.early (.inr (.inr (.inl hp)))).2
    have hold := hn (by simp [prepare, hw])
    simp only [prepare, hw, Bool.not_false, Bool.and_self, if_true]
    rw [hput hold]
    unfold State.entry
    rw [lookup_cas, if_pos hr]
  | casFailed hp hop hr =>
    simp only [respond, Bool.and_not_self, Bool.false_eq_true, if_false]
    unfold State.entry
    rw [lookup_cas, if_neg (by simp [hr])]
  | deleteDone hp hop hr =>
    have hw := (w.early (.inr (.inr (.inl hp)))).2
    rw [respondIfAlone_wrote]
    simp only [prepare, hw, Bool.not_false, Bool.and_self, if_true]
    have hv : h.rawVal = clocktimeTo h.ct := by
      unfold rawVal
      rw [hop]
    rw [hv]
    exact lookup_remove_put (hk hp (by rw [hop]; rfl)) ho
  | deleteNothing hp hop hr =>
    simp only [respond, Bool.and_not_self, Bool.false_eq_true, if_false]
    exact lookup_remove_false hr
  | deleteElsewhere hp hop hr =>
    rw [respondIfAlone_wrote]
    simp only [prepare, Bool.and_not_self, Bool.false_eq_true, if_false]
    exact lookup_remove_false hr
  | send => simp
  | written hp hi hop =>
    have hw : h.wrote = false := by
      by_contra hw
      have hd := (w.setWrote ⟨_, _, hop⟩).2 (by simpa using hw)
      simp [hp] at hd
    have hold := hn (by simp [hw])
    simp only [Bool.true_and, hw, Bool.not_false, if_true]
    rw [hput hold]
    exact lookup_set
  | casSent => simp
  | deleteSent => simp
  | ended => simp

/-- The entry after the next step of a handler. -/
theorem entry_step (w : h.Wf) (ho : HasClocktime (s.entry key))
    (hk : h.pc = .apply → h.KeepsKey key s) (hn : h.WritesNewer key s) : (h.step key s).1.entry key =
      if h.lands key s then put clocktimeOf (s.entry key) h.rawVal else s.entry key :=
  (step_moves key s h).entry w ho hk hn

theorem Moves.hashSpaces (m : Moves key s h s' h' o) : s'.whs = s.whs ∧ s'.rhs = s.rhs := by
  cases m <;> exact ⟨rfl, rfl⟩

theorem replicate_ok {self : Address} {b : Bool} (hc : checkReplicate self key b s = .ok ()) :
    ∃ r, (replicate self key s (h.message b)).2 = .ok r := by
  unfold message
  split <;> simp only [replicate, hc] <;> exact ⟨_, rfl⟩

/-- The value that a replica is sent is put there, unless the replica refuses it. -/
theorem entry_replicate {self : Address} {b : Bool}
    (hc : checkReplicate self key b s = .ok ()) (ho : HasClocktime (s.entry key))
    (hk : h.KeepsKey key s) : (replicate self key s (h.message b)).1.entry key =
      put clocktimeOf (s.entry key) h.rawVal := by
  unfold message rawVal
  split
  next =>
    simp only [replicate, hc]
    exact lookup_update_put ho
  next =>
    simp only [replicate, hc]
    exact lookup_update_put ho
  next async hop =>
    simp only [replicate, hc]
    exact lookup_remove_put (hk (by rw [hop]; rfl)) ho

theorem replicate_refused {self : Address} {b : Bool} {e : String}
    (hc : checkReplicate self key b s = .error e) :
    replicate self key s (h.message b) = (s, .error e) := by
  unfold message
  split <;> simp only [replicate, hc]

end Handler

theorem replicate_hashSpaces (self : Address) (key : DBKey) (s : State) (m : Replicate) :
    (replicate self key s m).1.whs = s.whs ∧ (replicate self key s m).1.rhs = s.rhs := by
  cases m <;> simp only [replicate] <;> split <;> exact ⟨rfl, rfl⟩

end Server

namespace StoreNet

open Storage

variable {cfg : Config} {s t : StoreNet} {a : Act}

/-- The entry of the key on a server. -/
def entry (cfg : Config) (s : StoreNet) (x : Address) : Option Bytes := (s.srv x).entry cfg.key

/-! ## What a step can be -/

inductive Steps (cfg : Config) (s : StoreNet) : Act → StoreNet → Prop
  | request {x : Address} {op : Op} :
      Steps cfg s (.request x op) { s with handlers := s.handlers ++ [.init x op] }
  | step {i : ℕ} {h h' : Handler} {x' : State} {o : Option ℕ} : s.handlers[i]? = some h →
      (x', h', o) = h.step cfg.key (s.srv h.self) →
      Steps cfg s (.step i)
        { (s.setSrv h.self x').setHandler i h' with
          packets := s.packets ++ (o.map fun c => Sending.mk i c 1).toList }
  | deliver {k : ℕ} {p : Sending} {h : Handler} {c : Call} {x' : State}
      {res : Except String Bool} : s.packets[k]? = some p →
      s.handlers[p.handler]? = some h → h.calls[p.call]? = some c →
      (x', res) = replicate c.dest cfg.key (s.srv c.dest) (h.message c.byRhs) →
      Steps cfg s (.deliver k)
        { s.setSrv c.dest x' with
          packets := s.packets.eraseIdx k
          replies := s.replies ++ [(p, res)] }
  | ignored {k : ℕ} {active : Bool} {r : Sending × Except String Bool} :
      s.replies[k]? = some r →
      Steps cfg s (.reply k active) { s with replies := s.replies.eraseIdx k }
  | replied {k : ℕ} {active : Bool} {r : Sending × Except String Bool} {h h' : Handler}
      {c : Call} {again : Bool} : s.replies[k]? = some r →
      s.handlers[r.1.handler]? = some h → h.calls[r.1.call]? = some c → c.status = .waiting →
      c.attempt = r.1.attempt →
      h.Answers (cfg.retryNum h.op) active r.1.call c r.2 h' again →
      Steps cfg s (.reply k active)
        { s.setHandler r.1.handler h' with
          packets := s.packets ++
            if again then [⟨r.1.handler, r.1.call, c.attempt + 1⟩] else []
          replies := s.replies.eraseIdx k }
  | failed {i j : ℕ} {active : Bool} {h h' : Handler} {c : Call} {again : Bool} :
      s.handlers[i]? = some h → h.calls[j]? = some c → c.status = .waiting →
      h.Answers (cfg.retryNum h.op) active j c (.error "timeout") h' again →
      Steps cfg s (.fail i j active)
        { s.setHandler i h' with
          packets := s.packets ++ if again then [⟨i, j, c.attempt + 1⟩] else [] }
  | clockUpdate {x : Address} {c : UInt32} :
      Steps cfg s (.clockUpdate x c)
        (s.setSrv x { s.srv x with clock := (s.srv x).clock.clockUpdate c })
  | time {x : Address} {c : UInt32} :
      Steps cfg s (.time x c)
        (s.setSrv x { s.srv x with clock := (s.srv x).clock.clockUpdateTime c })
  | hashSpaces {x : Address} {whs rhs : HashSpace} :
      Steps cfg s (.hashSpaces x whs rhs) (s.setSrv x { s.srv x with whs := whs, rhs := rhs })
  | removeOther {x : Address} {rawKey : Bytes} {ct : ClockTime} : rawKey ≠ cfg.key.raw →
      Steps cfg s (.removeOther x rawKey ct)
        (s.setSrv x { s.srv x with storage := ((s.srv x).storage.remove rawKey ct).1 })

theorem callback_eq (cfg : Config) (s : StoreNet) (i j : ℕ) (h : Handler) (c : Call)
    (res : Except String Bool) (active : Bool) : ∃ h' again,
      h.Answers (cfg.retryNum h.op) active j c res h' again ∧
      s.callback cfg i j h c res active =
        { s.setHandler i h' with
          packets := s.packets ++ if again then [⟨i, j, c.attempt + 1⟩] else [] } := by
  refine ⟨_, _, Handler.onReply_answers (cfg.retryNum h.op) h j c res active, ?_⟩
  unfold callback
  simp only []
  split_ifs with hr
  · rfl
  · simp [setHandler]

theorem waitingCall_eq_some {i j n : ℕ} {h : Handler} {c : Call}
    (hw : s.waitingCall i j n = some (h, c)) : s.handlers[i]? = some h ∧
      h.calls[j]? = some c ∧ c.status = .waiting ∧ c.attempt = n := by
  unfold waitingCall at hw
  obtain ⟨h', hh, hw⟩ := Option.bind_eq_some_iff.1 hw
  obtain ⟨c', hc, hw⟩ := Option.map_eq_some_iff.1 hw
  cases hw
  obtain ⟨hc, hst⟩ := Option.filter_eq_some_iff.1 hc
  simp only [decide_eq_true_eq] at hst
  exact ⟨hh, hc, hst.1, hst.2⟩

theorem step_steps (h : step cfg s a = some t) : Steps cfg s a t := by
  cases a with
  | request x op =>
    simp only [step, Option.some.injEq] at h
    exact h ▸ .request
  | step i =>
    obtain ⟨hd, hh, rfl⟩ := Option.map_eq_some_iff.1 h
    exact .step hh rfl
  | deliver k =>
    obtain ⟨p, hp, h⟩ := Option.bind_eq_some_iff.1 h
    obtain ⟨hd, hh, h⟩ := Option.bind_eq_some_iff.1 h
    obtain ⟨c, hc, rfl⟩ := Option.map_eq_some_iff.1 h
    exact .deliver hp hh hc rfl
  | reply k active =>
    obtain ⟨r, hr, rfl⟩ := Option.map_eq_some_iff.1 h
    simp only []
    split
    next => exact .ignored hr
    next hd c hw =>
      obtain ⟨hh, hc, hst, hn⟩ := waitingCall_eq_some hw
      obtain ⟨h', again, ha, he⟩ := callback_eq cfg { s with replies := s.replies.eraseIdx k }
        r.1.handler r.1.call hd c r.2 active
      rw [he]
      exact .replied hr hh hc hst hn ha
  | fail i j active =>
    obtain ⟨hd, hh, h⟩ := Option.bind_eq_some_iff.1 h
    obtain ⟨c, hc, rfl⟩ := Option.map_eq_some_iff.1 h
    obtain ⟨hc, hst⟩ := Option.filter_eq_some_iff.1 hc
    obtain ⟨h', again, ha, he⟩ := callback_eq cfg s i j hd c (.error "timeout") active
    rw [he]
    exact .failed hh hc (by simpa using hst) ha
  | clockUpdate x c =>
    simp only [step, Option.some.injEq] at h
    exact h ▸ .clockUpdate
  | time x c =>
    simp only [step, Option.some.injEq] at h
    exact h ▸ .time
  | hashSpaces x whs rhs =>
    simp only [step, Option.some.injEq] at h
    exact h ▸ .hashSpaces
  | removeOther x rawKey ct =>
    simp only [step] at h
    split_ifs at h with hk
    cases h
    exact .removeOther hk

/-! ## What it does to the entries -/

/-- No step collects the tombstone of the key. -/
def KeepsEntry (cfg : Config) (s : StoreNet) : Act → Prop
  | .step i => ∀ h ∈ s.handlers[i]?, h.pc = .apply → h.KeepsKey cfg.key (s.srv h.self)
  | .deliver k => ∀ p ∈ s.packets[k]?, ∀ h ∈ s.handlers[p.handler]?, ∀ c ∈ h.calls[p.call]?,
    h.KeepsKey cfg.key (s.srv c.dest)
  | .removeOther x rawKey ct => (s.srv x).storage.Keeps cfg.key.raw rawKey ct
  | _ => True

instance (cfg : Config) (s : StoreNet) : (a : Act) → Decidable (s.KeepsEntry cfg a)
  | .step _ | .deliver _ => by unfold KeepsEntry; infer_instance
  | .removeOther .. => by unfold KeepsEntry; infer_instance
  | .request .. | .reply .. | .fail .. | .clockUpdate .. | .time .. | .hashSpaces .. => isTrue trivial

/-- The local write of a `Set` or of a `CAS` overwrites an older entry. -/
def WritesNewer (cfg : Config) (s : StoreNet) : Act → Prop
  | .step i => ∀ h ∈ s.handlers[i]?, h.WritesNewer cfg.key (s.srv h.self)
  | _ => True

instance (cfg : Config) (s : StoreNet) : (a : Act) → Decidable (s.WritesNewer cfg a)
  | .step _ => by unfold WritesNewer; infer_instance
  | .request .. | .deliver .. | .reply .. | .fail .. | .clockUpdate .. | .time ..
  | .hashSpaces .. | .removeOther .. => isTrue trivial

/-- A clocktime that is issued is one of `C`. -/
def Issues (C : Set ClockTime) (s : StoreNet) : Act → Prop
  | .step i => ∀ h ∈ s.handlers[i]?, h.pc = .stamp →
    (s.srv h.self).clock.clockIncrClocktime.1 ∈ C
  | _ => True

instance (C : Set ClockTime) [DecidablePred (· ∈ C)] (s : StoreNet) :
    (a : Act) → Decidable (s.Issues C a)
  | .step _ => by unfold Issues; infer_instance
  | .request .. | .deliver .. | .reply .. | .fail .. | .clockUpdate .. | .time ..
  | .hashSpaces .. | .removeOther .. => isTrue trivial

/-- The handler whose value a step puts, and where. -/
def landing (cfg : Config) (s : StoreNet) : Act → Option (Address × Handler)
  | .step i => (s.handlers[i]?.filter fun h => h.lands cfg.key (s.srv h.self)).map fun h =>
    (h.self, h)
  | .deliver k => s.packets[k]?.bind fun p => s.handlers[p.handler]?.bind fun h =>
    (h.calls[p.call]?.filter fun c =>
      checkReplicate c.dest cfg.key c.byRhs (s.srv c.dest) matches .ok ()).map fun c => (c.dest, h)
  | _ => none

theorem entry_setSrv (x : Address) (v : State) :
    entry cfg (s.setSrv x v) = Function.update (entry cfg s) x (v.entry cfg.key) := by
  funext y
  unfold entry setSrv
  by_cases hy : y = x
  · subst hy
    simp
  · simp [hy]

theorem entry_setSrv_same (x : Address) (v : State) (hv : v.entry cfg.key = entry cfg s x) :
    entry cfg (s.setSrv x v) = entry cfg s := by
  rw [entry_setSrv, hv, Function.update_eq_self]

/-- A step puts the value of one handler at one server, or changes no entry of the key. -/
theorem Steps.entry (st : Steps cfg s a t) (hw : ∀ h ∈ s.handlers, h.Wf)
    (hE : ∀ x, HasClocktime (entry cfg s x)) (hK : s.KeepsEntry cfg a)
    (hN : s.WritesNewer cfg a) :
    (∃ y h, landing cfg s a = some (y, h) ∧ StoreNet.entry cfg t =
      Function.update (StoreNet.entry cfg s) y
        (put clocktimeOf (StoreNet.entry cfg s y) h.rawVal)) ∨
    (landing cfg s a = none ∧ StoreNet.entry cfg t = StoreNet.entry cfg s) := by
  cases st with
  | @step i h h' x' o hh he =>
    have hx : x'.entry cfg.key = if h.lands cfg.key (s.srv h.self) then
        put clocktimeOf (StoreNet.entry cfg s h.self) h.rawVal else StoreNet.entry cfg s h.self := by
      have := Handler.entry_step (hw h (List.mem_of_getElem? hh)) (hE h.self) (hK h hh) (hN h hh)
      rw [← he] at this
      exact this
    by_cases hl : h.lands cfg.key (s.srv h.self) = true
    · rw [if_pos hl] at hx
      exact .inl ⟨h.self, h, by simp [landing, hh, hl], by rw [← hx]; exact entry_setSrv _ _⟩
    · rw [if_neg hl] at hx
      exact .inr ⟨by simp [landing, hh, hl], entry_setSrv_same _ _ hx⟩
  | @deliver k p h c x' res hp hh hc he =>
    cases hck : checkReplicate c.dest cfg.key c.byRhs (s.srv c.dest) with
    | ok u =>
      have hx := Handler.entry_replicate hck (hE c.dest) (hK p hp h hh c hc)
      rw [← he] at hx
      exact .inl ⟨c.dest, h, by simp [landing, hp, hh, hc, hck],
        (entry_setSrv _ _).trans (by rw [hx]; rfl)⟩
    | error e =>
      rw [Handler.replicate_refused hck] at he
      cases he
      exact .inr ⟨by simp [landing, hp, hh, hc, hck], entry_setSrv_same _ _ rfl⟩
  | request => exact .inr ⟨rfl, rfl⟩
  | ignored => exact .inr ⟨rfl, rfl⟩
  | replied => exact .inr ⟨rfl, rfl⟩
  | failed => exact .inr ⟨rfl, rfl⟩
  | clockUpdate => exact .inr ⟨rfl, entry_setSrv_same _ _ rfl⟩
  | time => exact .inr ⟨rfl, entry_setSrv_same _ _ rfl⟩
  | hashSpaces => exact .inr ⟨rfl, entry_setSrv_same _ _ rfl⟩
  | @removeOther x rawKey ct hne =>
    have hk : (s.srv x).storage.Keeps cfg.key.raw rawKey ct := hK
    exact .inr ⟨rfl, entry_setSrv_same _ _ (hk.trans (Db.lookup_update_ne hne.symm))⟩

theorem Steps.hashSpaces_eq (st : Steps cfg s a t) (hf : ∀ y w r, a ≠ .hashSpaces y w r)
    (x : Address) :
    (t.srv x).whs = (s.srv x).whs ∧ (t.srv x).rhs = (s.srv x).rhs := by
  have set : ∀ (y : Address) (v : State), v.whs = (s.srv y).whs ∧ v.rhs = (s.srv y).rhs →
      ((s.setSrv y v).srv x).whs = (s.srv x).whs ∧ ((s.setSrv y v).srv x).rhs = (s.srv x).rhs := by
    intro y v hv
    unfold setSrv
    by_cases hy : x = y
    · subst hy
      simpa using hv
    · simp [hy]
  cases st with
  | @step i h h' x' o hh he =>
    have m := Handler.moves_of_step he
    exact set _ _ m.hashSpaces
  | @deliver k p h c x' res hp hh hc he =>
    refine set _ _ ?_
    have hx := replicate_hashSpaces c.dest cfg.key (s.srv c.dest) (h.message c.byRhs)
    rw [← he] at hx
    exact hx
  | clockUpdate | time | removeOther => exact set _ _ ⟨rfl, rfl⟩
  | hashSpaces => exact absurd rfl (hf _ _ _)
  | _ => exact ⟨rfl, rfl⟩

/-! ## What it does to the handlers -/

/-- Where a handler comes from: a request, itself, its next step or the callback of a call. -/
theorem Steps.origin (st : Steps cfg s a t) {j : ℕ} {h' : Handler}
    (hj : t.handlers[j]? = some h') :
    (∃ x op, h' = .init x op ∧ s.handlers[j]? = none) ∨ ∃ h, s.handlers[j]? = some h ∧ (h' = h ∨
      (∃ x' o, a = .step j ∧ (x', h', o) = h.step cfg.key (s.srv h.self)) ∨
      (∃ i c res again active, h.calls[i]? = some c ∧ c.status = .waiting ∧
        h.Answers (cfg.retryNum h.op) active i c res h' again ∧
        (a = .fail j i active ∧ res = .error "timeout" ∨
          ∃ k, a = .reply k active ∧ s.replies[k]? = some (⟨j, i, c.attempt⟩, res)))) := by
  have set : ∀ {i : ℕ} {h g : Handler}, s.handlers[i]? = some h →
      (s.handlers.set i g)[j]? = some h' → i = j ∧ g = h' ∨ s.handlers[j]? = some h' := by
    intro i h g hi hs
    rw [List.getElem?_set] at hs
    split_ifs at hs with hij hlt
    · exact .inl ⟨hij, by simpa using hs⟩
    · exact .inr hs
  cases st with
  | @request x op =>
    rcases Nat.lt_trichotomy j s.handlers.length with hl | hl | hl
    · rw [List.getElem?_append_left hl] at hj
      exact .inr ⟨h', hj, .inl rfl⟩
    · rw [List.getElem?_append_right (by omega), hl, Nat.sub_self] at hj
      simp only [List.getElem?_cons_zero, Option.some.injEq] at hj
      exact .inl ⟨x, op, hj.symm, List.getElem?_eq_none (by omega)⟩
    · rw [List.getElem?_eq_none (by simp; omega)] at hj
      cases hj
  | step hh he =>
    rcases set hh hj with ⟨rfl, rfl⟩ | hj
    · exact .inr ⟨_, hh, .inr (.inl ⟨_, _, rfl, he⟩)⟩
    · exact .inr ⟨h', hj, .inl rfl⟩
  | @replied k active r h g c again hr hh hc hw hn ha =>
    rcases set hh hj with ⟨rfl, rfl⟩ | hj
    · exact .inr ⟨_, hh, .inr (.inr ⟨_, c, r.2, again, active, hc, hw, ha,
        .inr ⟨k, rfl, by rw [hr, hn]⟩⟩)⟩
    · exact .inr ⟨h', hj, .inl rfl⟩
  | @failed i k active h g c again hh hc hw ha =>
    rcases set hh hj with ⟨rfl, rfl⟩ | hj
    · exact .inr ⟨_, hh, .inr (.inr ⟨_, c, _, again, active, hc, hw, ha, .inl ⟨rfl, rfl⟩⟩)⟩
    · exact .inr ⟨h', hj, .inl rfl⟩
  | deliver => exact .inr ⟨h', hj, .inl rfl⟩
  | ignored => exact .inr ⟨h', hj, .inl rfl⟩
  | clockUpdate => exact .inr ⟨h', hj, .inl rfl⟩
  | time => exact .inr ⟨h', hj, .inl rfl⟩
  | hashSpaces => exact .inr ⟨h', hj, .inl rfl⟩
  | removeOther => exact .inr ⟨h', hj, .inl rfl⟩

theorem Steps.exists_handler (st : Steps cfg s a t) {j : ℕ} {h : Handler}
    (hj : s.handlers[j]? = some h) : ∃ h', t.handlers[j]? = some h' := by
  have hlt : j < s.handlers.length := (List.getElem?_eq_some_iff.1 hj).1
  have hlen : s.handlers.length ≤ t.handlers.length := by
    cases st <;> simp [setHandler, setSrv]
  exact ⟨t.handlers[j], List.getElem?_eq_getElem (by omega)⟩

/-- A handler stays, in a later state. -/
theorem Steps.later (st : Steps cfg s a t) (hw : ∀ h ∈ s.handlers, h.Wf) {j : ℕ} {h : Handler}
    (hj : s.handlers[j]? = some h) : ∃ h', t.handlers[j]? = some h' ∧ h.Later h' := by
  obtain ⟨h', hj'⟩ := st.exists_handler hj
  refine ⟨h', hj', ?_⟩
  rcases st.origin hj' with ⟨x, op, -, hn⟩ | ⟨g, hg, hcase⟩
  · simp [hj] at hn
  obtain rfl : h = g := Option.some.inj (hj.symm.trans hg)
  rcases hcase with rfl | ⟨x', o, -, he⟩ | ⟨i, c, res, again, act, hc, -, ha, -⟩
  · exact .refl _
  · have m := Handler.moves_of_step he
    exact m.later (hw h (List.mem_of_getElem? hj))
  · exact ha.later hc

theorem Steps.wf (st : Steps cfg s a t) (hw : ∀ h ∈ s.handlers, h.Wf) :
    ∀ h ∈ t.handlers, h.Wf := by
  intro h' hh'
  obtain ⟨j, hj'⟩ := List.mem_iff_getElem?.1 hh'
  rcases st.origin hj' with ⟨x, op, rfl, -⟩ | ⟨h, hj, hcase⟩
  · exact Handler.init_wf x op
  have w := hw h (List.mem_of_getElem? hj)
  rcases hcase with rfl | ⟨x', o, -, he⟩ | ⟨i, c, res, again, act, hc, hwait, ha, -⟩
  · exact w
  · have m := Handler.moves_of_step he
    exact m.wf w
  · exact ha.wf w hc hwait

/-- A handler that has written had done so before, or its value is put by this step. -/
theorem Steps.wrote_origin (st : Steps cfg s a t) (hw : ∀ h ∈ s.handlers, h.Wf) {j : ℕ}
    {h' : Handler} (hj' : t.handlers[j]? = some h') (hwr : h'.wrote = true) :
    (∃ h, s.handlers[j]? = some h ∧ h.wrote = true ∧ h.Later h') ∨
    ∃ h, s.handlers[j]? = some h ∧ landing cfg s a = some (h.self, h) ∧ h'.self = h.self ∧
      h'.op = h.op ∧ h'.ct = h.ct := by
  rcases st.origin hj' with ⟨x, op, rfl, -⟩ | ⟨h, hj, hcase⟩
  · simp [Handler.init] at hwr
  have w := hw h (List.mem_of_getElem? hj)
  rcases hcase with rfl | ⟨x', o, rfl, he⟩ | ⟨i, x, res, again, act, hx, -, ha, -⟩
  · exact .inl ⟨_, hj, hwr, .refl _⟩
  · have m := Handler.moves_of_step he
    have l := m.later w
    by_cases hwo : h.wrote = true
    · exact .inl ⟨h, hj, hwo, l⟩
    · have hlands : h.lands cfg.key (s.srv h.self) = true := by
        unfold Handler.lands
        rw [← he]
        simp [hwr, hwo]
      have hst := m.stamped_of_wrote hwr (by simpa using hwo)
      refine .inr ⟨h, hj, by simp [landing, hj, hlands], l.self, l.op, ?_⟩
      rcases m.ct_of_stamped ((m.wf w).stamped (.inr (.inl hwr))) with ⟨-, hct⟩ | ⟨hp, -⟩
      · exact hct
      · simp [Handler.Stamped, hp] at hst
  · have l := ha.later hx
    obtain ⟨c', n, rs, r₁, r₂, rfl, -⟩ := ha.eq
    exact .inl ⟨h, hj, hwr, l⟩

/-! ## Stamped entries -/

/-- The entries and the handlers have their clocktimes from `C`. -/
structure Inv (C : Set ClockTime) (cfg : Config) (s : StoreNet) : Prop where
  wf : ∀ h ∈ s.handlers, h.Wf
  stamped : ∀ h ∈ s.handlers, h.Stamped → h.ct ∈ C
  hasClocktime : ∀ x, HasClocktime (entry cfg s x)
  entries : ∀ x e, entry cfg s x = some e → clocktimeOf e ∈ C

variable {C : Set ClockTime}

theorem landing_begun (hw : ∀ h ∈ s.handlers, h.Wf) {y : Address} {h : Handler}
    (hl : landing cfg s a = some (y, h)) : h ∈ s.handlers ∧ h.Stamped := by
  unfold landing at hl
  split at hl
  next i =>
    obtain ⟨g, hg, he⟩ := Option.map_eq_some_iff.1 hl
    cases he
    obtain ⟨hg, hlands⟩ := Option.filter_eq_some_iff.1 hg
    have hm := List.mem_of_getElem? hg
    simp only [Handler.lands, Bool.and_eq_true, Bool.not_eq_true'] at hlands
    exact ⟨hm, (Handler.step_moves cfg.key _ _).stamped_of_wrote hlands.1 hlands.2⟩
  next k =>
    obtain ⟨p, hp, hl⟩ := Option.bind_eq_some_iff.1 hl
    obtain ⟨g, hg, hl⟩ := Option.bind_eq_some_iff.1 hl
    obtain ⟨c, hc, he⟩ := Option.map_eq_some_iff.1 hl
    cases he
    have hc := (Option.filter_eq_some_iff.1 hc).1
    have hm := List.mem_of_getElem? hg
    exact ⟨hm, (hw _ hm).stamped (Handler.begun_of_mem (List.mem_of_getElem? hc))⟩
  next => cases hl

theorem Inv.landed (inv : Inv C cfg s) {y : Address} {h : Handler}
    (hl : landing cfg s a = some (y, h)) : clocktimeOf h.rawVal ∈ C := by
  obtain ⟨hm, hs⟩ := landing_begun inv.wf hl
  rw [h.clocktimeOf_rawVal]
  exact inv.stamped h hm hs

theorem Inv.put_atLeast (inv : Inv C cfg s) (hC : StrictTotal C) (st : Steps cfg s a t)
    (hK : s.KeepsEntry cfg a) (hN : s.WritesNewer cfg a) {x : Address} {u : ClockTime}
    (hu : u ∈ C) (h : AtLeast clocktimeOf (entry cfg s x) u) :
    AtLeast clocktimeOf (entry cfg t x) u := by
  rcases st.entry inv.wf inv.hasClocktime hK hN with ⟨y, g, hl, he⟩ | ⟨-, he⟩
  · rw [he]
    by_cases hy : x = y
    · subst hy
      rw [Function.update_self]
      exact h.put hC (inv.entries x) (inv.landed hl) hu
    · rw [Function.update_of_ne hy]
      exact h
  · rw [he]
    exact h

theorem Inv.step (inv : Inv C cfg s) (st : Steps cfg s a t) (hK : s.KeepsEntry cfg a)
    (hN : s.WritesNewer cfg a) (hI : s.Issues C a) : Inv C cfg t where
  wf := st.wf inv.wf
  stamped h' hh' hs := by
    obtain ⟨j, hj'⟩ := List.mem_iff_getElem?.1 hh'
    rcases st.origin hj' with ⟨x, op, rfl, -⟩ | ⟨h, hj, hcase⟩
    · simp [Handler.Stamped, Handler.init] at hs
    have hm := List.mem_of_getElem? hj
    rcases hcase with rfl | ⟨x', o, rfl, he⟩ | ⟨i, c, res, again, act, hc, hwait, ha, -⟩
    · exact inv.stamped _ hm hs
    · have m := Handler.moves_of_step he
      rcases m.ct_of_stamped hs with ⟨hst, hct⟩ | ⟨hp, hct⟩
      · exact hct ▸ inv.stamped h hm hst
      · exact hct ▸ hI h hj hp
    · obtain ⟨c', n, rs, r₁, r₂, rfl, -⟩ := ha.eq
      exact inv.stamped h hm hs
  hasClocktime x := by
    rcases st.entry inv.wf inv.hasClocktime hK hN with ⟨y, h, hl, he⟩ | ⟨-, he⟩
    · rw [he]
      by_cases hx : x = y
      · subst hx
        rw [Function.update_self]
        intro e hput
        unfold put at hput
        split_ifs at hput
        · cases hput
          exact h.length_rawVal
        · exact inv.hasClocktime x e hput
      · rw [Function.update_of_ne hx]
        exact inv.hasClocktime x
    · rw [he]
      exact inv.hasClocktime x
  entries x := by
    rcases st.entry inv.wf inv.hasClocktime hK hN with ⟨y, h, hl, he⟩ | ⟨-, he⟩
    · rw [he]
      by_cases hx : x = y
      · subst hx
        rw [Function.update_self]
        exact put_stamped (inv.entries x) (inv.landed hl)
      · rw [Function.update_of_ne hx]
        exact inv.entries x
    · rw [he]
      exact inv.entries x

end StoreNet

end Kumofs
