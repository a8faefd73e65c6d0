import Kumofs.Lib.Run
import Kumofs.Rpc.Handshake

/-!
# Who is at the other end

A node knows the node that has connected to it and is known by it before a call comes from there, a
client is never taken for a node nor a node for a client, and neither end is closed by a message of
the other one. What is sent is dispatched once and in its order.
-/

namespace Kumofs.Rpc

open Machine (Run Free)

variable {self msg : Message} {e e' : End} {l l' out : List Message} {s t : Link} {k : ℕ}
  {addr : Address} {role : UInt8} {p : Address × UInt8}

/-- There is no init message. -/
def Plain (l : List Message) : Prop := ∀ msg ∈ l, msg.number.isSome = true

/-- There is one init message, and it is the next one. -/
def Greets (msg : Message) (l : List Message) : Prop := ∃ rest, l = msg :: rest ∧ Plain rest

theorem plain_nil : Plain [] := nofun

theorem plain_call (k : ℕ) : Plain [.call k] := fun msg hmsg => by
  rw [List.mem_singleton.1 hmsg]
  rfl

theorem Plain.append (h : Plain l) (h' : Plain l') : Plain (l ++ l') :=
  fun msg hmsg => (List.mem_append.1 hmsg).elim (h msg) (h' msg)

theorem Greets.append (h : Greets msg l) (h' : Plain l') : Greets msg (l ++ l') := by
  obtain ⟨rest, rfl, hrest⟩ := h
  exact ⟨rest ++ l', rfl, hrest.append h'⟩

theorem plain_cons (h : Plain (msg :: l)) : (∃ k, msg = .call k) ∧ Plain l := by
  refine ⟨?_, fun m hm => h m (List.mem_cons_of_mem _ hm)⟩
  cases msg with
  | init addr role => exact absurd (h _ List.mem_cons_self) nofun
  | call k => exact ⟨k, rfl⟩

theorem calls_append (l l' : List Message) : calls (l ++ l') = calls l ++ calls l' :=
  List.filterMap_append ..

namespace Link

/-- What an end can do. -/
inductive Acts (self : Message) (e : End) (l : List Message) :
    End → List Message → List Message → Prop
  | bind : e.session = true ∨ e.state = .initializing → e.bound = false → Acts self e l e.bind l []
  | send (k : ℕ) : e.bound = true →
      Acts self e l { e with sent := e.sent ++ [k] } l [.call k]
  | receive {msg : Message} {e' : End} {rest out : List Message} : l = msg :: rest →
      (e.session = true → e.bound = true) → e.process self msg = some (e', out) →
      Acts self e l e' rest out
  | setRole : e.state = .initializing → e.bound = true →
      Acts self e l { e with state := .cluster } l []
  | close : Acts self e l { e with state := .closed } l []

theorem act_cases {a : Act} (h : act self e l a = some (e', l', out)) :
    Acts self e l e' l' out := by
  cases a with
  | bind =>
    simp only [act] at h
    split_ifs at h with hb
    cases h
    exact .bind hb.1 hb.2.1
  | send k =>
    simp only [act] at h
    split_ifs at h with hb
    cases h
    exact .send k hb.1
  | receive =>
    cases l with
    | nil => cases h
    | cons msg rest =>
      simp only [act] at h
      split_ifs at h with hb
      obtain ⟨r, hr, he⟩ := Option.map_eq_some_iff.1 h
      cases he
      exact .receive rfl (by simpa using hb) hr
  | setRole =>
    simp only [act] at h
    split_ifs at h with hb
    cases h
    exact .setRole hb.1 hb.2
  | close =>
    simp only [act] at h
    split_ifs at h
    cases h
    exact .close

/-- A call is dispatched, unless an exception is thrown. -/
theorem process_flow (hself : self.number = none) (h : e.process self msg = some (e', out))
    (hf : e'.failed = false) : e'.received = e.received ++ msg.number.toList ∧
      e.failed = false ∧ e'.sent = e.sent ∧ calls out = [] := by
  have hout : calls [self] = [] := by simp [calls, hself]
  unfold End.process at h
  split at h
  · cases msg with
    | init addr role =>
      simp only [End.initMessage] at h
      split_ifs at h <;> cases h
      · exact ⟨(List.append_nil _).symm, hf, rfl, rfl⟩
      · exact ⟨(List.append_nil _).symm, hf, rfl, hout⟩
      · cases hf
    | call k =>
      simp only [End.initMessage] at h
      split_ifs at h <;> cases h
      · cases hf
      · exact ⟨rfl, hf, rfl, rfl⟩
  · cases msg <;> cases h
    · cases hf
    · exact ⟨rfl, hf, rfl, rfl⟩
  · cases msg <;> cases h
    · cases hf
    · exact ⟨rfl, hf, rfl, rfl⟩
  · cases h
  · cases h

/-- What is received is taken from the stream, and what is sent goes to the other one. -/
theorem acts_flow (hself : self.number = none) (h : Acts self e l e' l' out)
    (hf : e'.failed = false) : e'.received ++ calls l' = e.received ++ calls l ∧
      e.failed = false ∧ e'.sent = e.sent ++ calls out := by
  cases h with
  | bind => exact ⟨rfl, hf, (List.append_nil _).symm⟩
  | send k => exact ⟨rfl, hf, rfl⟩
  | @receive msg _ _ _ hl _ hp =>
    obtain ⟨hr, hfail, hsent, hout⟩ := process_flow hself hp hf
    refine ⟨?_, hfail, by rw [hsent, hout, List.append_nil]⟩
    rw [hr, hl, List.append_assoc]
    refine congrArg _ ?_
    cases msg <;> rfl
  | setRole => exact ⟨rfl, hf, (List.append_nil _).symm⟩
  | close => exact ⟨rfl, hf, (List.append_nil _).symm⟩

/-! ## Between nodes -/

/-- `init_message` has been called. -/
structure Told (p : Address × UInt8) (e : End) (l : List Message) : Prop where
  told : e.told = some p
  state : e.state = .initializing ∨ e.state = .cluster ∨ e.state = .closed
  plain : Plain l

/-- It has not been called. -/
structure Untold (b : Bool) (e : End) : Prop where
  told : e.told = none
  state : e.state = .initial ∨ e.state = .closed
  session : e.session = b
  bound : b = false → e.bound = false

theorem Told.acts (he : Told p e l) (h : Acts self e l e' l' out) :
    Told p e' l' ∧ e'.failed = e.failed ∧ Plain out := by
  cases h with
  | bind => exact ⟨⟨he.told, he.state, he.plain⟩, rfl, plain_nil⟩
  | send k => exact ⟨⟨he.told, he.state, he.plain⟩, rfl, plain_call k⟩
  | @receive msg _ _ _ hl _ hp =>
    obtain ⟨⟨k, rfl⟩, hrest⟩ := plain_cons (hl ▸ he.plain)
    unfold End.process at hp
    obtain hs | hs | hs := he.state <;> rw [hs] at hp
    · cases hp
    · cases hp
      exact ⟨⟨he.told, .inr (.inl hs), hrest⟩, rfl, plain_nil⟩
    · cases hp
  | setRole => exact ⟨⟨he.told, .inr (.inl rfl), he.plain⟩, rfl, plain_nil⟩
  | close => exact ⟨⟨he.told, .inr (.inr rfl), he.plain⟩, rfl, plain_nil⟩

/-- The node that has accepted waits for the init message, and then sends its own. -/
theorem Untold.accepts (he : Untold false e) (hl : Greets (.init p.1 p.2) l)
    (hc : p.1.connectable = true) (h : Acts self e l e' l' out) : e'.failed = e.failed ∧
      (Untold false e' ∧ Greets (.init p.1 p.2) l' ∧ out = [] ∨ Told p e' l' ∧ out = [self]) := by
  have hinit : e.state ≠ .initializing := by
    obtain hs | hs := he.state <;> rw [hs] <;> exact nofun
  cases h with
  | bind hb _ =>
    rw [he.session] at hb
    exact (hb.elim nofun hinit).elim
  | send k hb =>
    rw [he.bound rfl] at hb
    cases hb
  | receive hm _ hp =>
    obtain ⟨rest, hrest, hplain⟩ := hl
    obtain ⟨rfl, rfl⟩ := List.cons.inj (hm.symm.trans hrest)
    unfold End.process at hp
    obtain hs | hs := he.state <;> rw [hs] at hp
    · simp only [End.initMessage, he.session, hc, if_true] at hp
      cases hp
      exact ⟨rfl, .inr ⟨⟨rfl, .inl rfl, hplain⟩, rfl⟩⟩
    · cases hp
  | setRole hs _ => exact absurd hs hinit
  | close => exact ⟨rfl, .inl ⟨⟨he.told, .inr rfl, he.session, he.bound⟩, hl, rfl⟩⟩

/-- The node that has connected sends calls before it has got the init message. -/
theorem Untold.connects (he : Untold true e) (hl : l = [] ∨ Greets (.init p.1 p.2) l)
    (h : Acts self e l e' l' out) : e'.failed = e.failed ∧ Plain out ∧
      (Untold true e' ∧ l' = l ∨ Greets (.init p.1 p.2) l ∧ Told p e' l') := by
  have hinit : e.state ≠ .initializing := by
    obtain hs | hs := he.state <;> rw [hs] <;> exact nofun
  cases h with
  | bind => exact ⟨rfl, plain_nil, .inl ⟨⟨he.told, he.state, rfl, nofun⟩, rfl⟩⟩
  | send k =>
    exact ⟨rfl, plain_call k, .inl ⟨⟨he.told, he.state, he.session, nofun⟩, rfl⟩⟩
  | receive hm _ hp =>
    obtain rfl | hl := hl
    · cases hm
    · obtain ⟨rest, hrest, hplain⟩ := id hl
      obtain ⟨rfl, rfl⟩ := List.cons.inj (hm.symm.trans hrest)
      unfold End.process at hp
      obtain hs | hs := he.state <;> rw [hs] at hp
      · simp only [End.initMessage, he.session, if_true] at hp
        cases hp
        exact ⟨rfl, plain_nil, .inr ⟨hl, ⟨rfl, .inl rfl, hplain⟩⟩⟩
      · cases hp
  | setRole hs _ => exact absurd hs hinit
  | close => exact ⟨rfl, plain_nil, .inl ⟨⟨he.told, .inr rfl, he.session, nofun⟩, rfl⟩⟩

/-- A node `p` has connected to a node `q`. -/
inductive Nodes (p q : Address × UInt8) (s : Link) : Prop
  | waits : Untold false s.acceptor → Greets (.init p.1 p.2) s.toAcceptor →
      Untold true s.connector → s.toConnector = [] → Nodes p q s
  | answered : Told p s.acceptor s.toAcceptor → Untold true s.connector →
      Greets (.init q.1 q.2) s.toConnector → Nodes p q s
  | done : Told p s.acceptor s.toAcceptor → Told q s.connector s.toConnector → Nodes p q s

theorem Told.append (h : Told p e l) (hl : Plain l') : Told p e (l ++ l') :=
  ⟨h.told, h.state, h.plain.append hl⟩

theorem Nodes.acceptor {q : Address × UInt8} (h : Nodes p q s) (hc : p.1.connectable = true)
    (ha : Acts (.init q.1 q.2) s.acceptor s.toAcceptor e' l' out) :
    Nodes p q { s with
      acceptor := e'
      toAcceptor := l'
      toConnector := s.toConnector ++ out } ∧ e'.failed = s.acceptor.failed := by
  cases h with
  | waits he hl hconn hempty =>
    obtain ⟨hf, ⟨he', hl', rfl⟩ | ⟨he', rfl⟩⟩ := he.accepts hl hc ha
    · exact ⟨.waits he' hl' hconn (by rw [hempty]; rfl), hf⟩
    · refine ⟨.answered he' hconn ?_, hf⟩
      rw [hempty]
      exact ⟨[], rfl, plain_nil⟩
  | answered he hconn hgreets =>
    obtain ⟨he', hf, hout⟩ := he.acts ha
    exact ⟨.answered he' hconn (hgreets.append hout), hf⟩
  | done he hconn =>
    obtain ⟨he', hf, hout⟩ := he.acts ha
    exact ⟨.done he' (hconn.append hout), hf⟩

theorem Nodes.connector {q : Address × UInt8} (h : Nodes p q s)
    (ha : Acts (.init q.1 q.2) s.connector s.toConnector e' l' out) :
    Nodes p q { s with
      connector := e'
      toConnector := l'
      toAcceptor := s.toAcceptor ++ out } ∧ e'.failed = s.connector.failed := by
  cases h with
  | waits he hl hconn hempty =>
    obtain ⟨hf, hout, ⟨hconn', rfl⟩ | ⟨⟨rest, hrest, -⟩, -⟩⟩ :=
      hconn.connects (p := q) (.inl hempty) ha
    · exact ⟨.waits he (hl.append hout) hconn' hempty, hf⟩
    · rw [hempty] at hrest
      cases hrest
  | answered he hconn hgreets =>
    obtain ⟨hf, hout, ⟨hconn', rfl⟩ | ⟨-, hconn'⟩⟩ := hconn.connects (.inr hgreets) ha
    · exact ⟨.answered (he.append hout) hconn' hgreets, hf⟩
    · exact ⟨.done (he.append hout) hconn', hf⟩
  | done he hconn =>
    obtain ⟨hconn', hf, hout⟩ := hconn.acts ha
    exact ⟨.done (he.append hout) hconn', hf⟩

/-! ## From a client -/

/-- No init message comes here. -/
structure Apart (e : End) (l : List Message) : Prop where
  state : e.state = .initial ∧ e.session = false ∧ e.bound = false ∨ e.state = .subsys ∨
    e.state = .closed
  plain : Plain l

theorem Apart.acts (he : Apart e l) (h : Acts self e l e' l' out) :
    Apart e' l' ∧ e'.failed = e.failed ∧ Plain out := by
  have hinit : e.state ≠ .initializing := by
    obtain ⟨hs, -⟩ | hs | hs := he.state <;> rw [hs] <;> exact nofun
  cases h with
  | bind hb _ =>
    refine ⟨⟨he.state.imp_left fun hs => ?_, he.plain⟩, rfl, plain_nil⟩
    rw [hs.2.1] at hb
    exact (hb.elim nofun hinit).elim
  | send k hb =>
    refine ⟨⟨he.state.imp_left fun hs => ?_, he.plain⟩, rfl, plain_call k⟩
    rw [hs.2.2] at hb
    cases hb
  | @receive msg _ _ _ hl _ hp =>
    obtain ⟨⟨k, rfl⟩, hrest⟩ := plain_cons (hl ▸ he.plain)
    unfold End.process at hp
    obtain ⟨hs, hsession, -⟩ | hs | hs := he.state <;> rw [hs] at hp
    · simp only [End.initMessage, hsession] at hp
      cases hp
      exact ⟨⟨.inr (.inl rfl), hrest⟩, rfl, plain_nil⟩
    · cases hp
      exact ⟨⟨.inr (.inl hs), hrest⟩, rfl, plain_nil⟩
    · cases hp
  | setRole hs _ => exact absurd hs hinit
  | close => exact ⟨⟨.inr (.inr rfl), he.plain⟩, rfl, plain_nil⟩

theorem Apart.append (h : Apart e l) (hl : Plain l') : Apart e (l ++ l') :=
  ⟨h.state, h.plain.append hl⟩

/-! ## The connection -/

def Kinds (c : Connector) (q : Address × UInt8) (s : Link) : Prop :=
  match c with
  | .node addr role => Nodes (addr, role) q s
  | .client => Apart s.acceptor s.toAcceptor ∧ Apart s.connector s.toConnector

structure Agreed (c : Connector) (q : Address × UInt8) (s : Link) : Prop where
  kinds : Kinds c q s
  acceptorFailed : s.acceptor.failed = false
  connectorFailed : s.connector.failed = false
  toAcceptor : s.acceptor.received ++ calls s.toAcceptor = s.connector.sent
  toConnector : s.connector.received ++ calls s.toConnector = s.acceptor.sent

theorem Agreed.step {c : Connector} {q : Address × UInt8} {a : Bool × Act} (hs : Agreed c q s)
    (hc : ∀ addr role, c = .node addr role → addr.connectable = true)
    (h : s.step (.init q.1 q.2) a = some t) : Agreed c q t := by
  obtain ⟨b, a⟩ := a
  cases b with
  | true =>
    obtain ⟨⟨e', l', out⟩, ha, rfl⟩ := Option.map_eq_some_iff.1 h
    have hacts := act_cases ha
    have hkinds : Kinds c q { s with
        acceptor := e'
        toAcceptor := l'
        toConnector := s.toConnector ++ out } ∧ e'.failed = s.acceptor.failed := by
      have hk := hs.kinds
      cases c with
      | node addr role => exact Nodes.acceptor hk (hc addr role rfl) hacts
      | client =>
        obtain ⟨he, hf, hout⟩ := hk.1.acts hacts
        exact ⟨⟨he, hk.2.append hout⟩, hf⟩
    have hf : e'.failed = false := hkinds.2.trans hs.acceptorFailed
    obtain ⟨hr, -, hsent⟩ := acts_flow rfl hacts hf
    refine ⟨hkinds.1, hf, hs.connectorFailed, hr.trans hs.toAcceptor, ?_⟩
    show s.connector.received ++ calls (s.toConnector ++ out) = e'.sent
    rw [calls_append, ← List.append_assoc, hs.toConnector, hsent]
  | false =>
    obtain ⟨⟨e', l', out⟩, ha, rfl⟩ := Option.map_eq_some_iff.1 h
    have hacts := act_cases ha
    have hkinds : Kinds c q { s with
        connector := e'
        toConnector := l'
        toAcceptor := s.toAcceptor ++ out } ∧ e'.failed = s.connector.failed := by
      have hk := hs.kinds
      cases c with
      | node addr role => exact Nodes.connector hk hacts
      | client =>
        obtain ⟨he, hf, hout⟩ := hk.2.acts hacts
        exact ⟨⟨hk.1.append hout, he⟩, hf⟩
    have hf : e'.failed = false := hkinds.2.trans hs.connectorFailed
    obtain ⟨hr, -, hsent⟩ := acts_flow rfl hacts hf
    refine ⟨hkinds.1, hs.acceptorFailed, hf, ?_, hr.trans hs.toConnector⟩
    show s.acceptor.received ++ calls (s.toAcceptor ++ out) = e'.sent
    rw [calls_append, ← List.append_assoc, hs.toAcceptor, hsent]

theorem agreed_start (c : Connector) (q : Address × UInt8) : Agreed c q (start c) := by
  cases c with
  | node addr role =>
    refine ⟨.waits ⟨rfl, .inl rfl, rfl, fun _ => rfl⟩ ⟨[], rfl, plain_nil⟩
      ⟨rfl, .inl rfl, rfl, nofun⟩ rfl, rfl, rfl, rfl, rfl⟩
  | client =>
    exact ⟨⟨⟨.inl ⟨rfl, rfl, rfl⟩, plain_nil⟩, ⟨.inr (.inl rfl), plain_nil⟩⟩, rfl, rfl, rfl, rfl⟩

/-- Nodes know each other, and clients are not taken for nodes. -/
def Known (c : Connector) (q : Address × UInt8) (s : Link) : Prop :=
  match c with
  | .node addr role =>
    (s.acceptor.state = .cluster → s.acceptor.told = some (addr, role)) ∧
      (s.connector.state = .cluster → s.connector.told = some q) ∧
      s.acceptor.state ≠ .subsys ∧ s.connector.state ≠ .subsys
  | .client => s.acceptor.state ≠ .initializing ∧ s.acceptor.state ≠ .cluster

theorem Told.ne_subsys (h : Told p e l) : e.state ≠ .subsys := by
  obtain hs | hs | hs := h.state <;> rw [hs] <;> exact nofun

theorem Untold.ne {b : Bool} (h : Untold b e) : e.state ≠ .subsys ∧ e.state ≠ .cluster := by
  obtain hs | hs := h.state <;> rw [hs] <;> exact ⟨nofun, nofun⟩

theorem Nodes.known {q : Address × UInt8} (h : Nodes (addr, role) q s) :
    Known (.node addr role) q s := by
  cases h with
  | waits he _ hconn _ =>
    exact ⟨fun hs => absurd hs he.ne.2, fun hs => absurd hs hconn.ne.2, he.ne.1, hconn.ne.1⟩
  | answered he hconn _ =>
    exact ⟨fun _ => he.told, fun hs => absurd hs hconn.ne.2, he.ne_subsys, hconn.ne.1⟩
  | done he hconn => exact ⟨fun _ => he.told, fun _ => hconn.told, he.ne_subsys, hconn.ne_subsys⟩

/-- If the address that a connecting node says is connectable, then whatever the ends do and in
whichever order, neither throws; each node knows the other one before it dispatches what comes from
there; and what the sessions send is dispatched in its order, once, as far as it has come. -/
theorem handshake {c : Connector} {q : Address × UInt8} {as : List (Bool × Act)}
    (hc : ∀ addr role, c = .node addr role → addr.connectable = true)
    (h : Run (step (.init q.1 q.2)) Free (start c) as s) :
    (s.acceptor.failed = false ∧ s.connector.failed = false) ∧ Known c q s ∧
      s.acceptor.received ++ calls s.toAcceptor = s.connector.sent ∧
      s.connector.received ++ calls s.toConnector = s.acceptor.sent := by
  have hs : Agreed c q s := h.inv (fun _ _ _ hs _ hst => hs.step hc hst) (agreed_start c q)
  refine ⟨⟨hs.acceptorFailed, hs.connectorFailed⟩, ?_, hs.toAcceptor, hs.toConnector⟩
  have hk := hs.kinds
  cases c with
  | node addr role => exact Nodes.known hk
  | client =>
    obtain ⟨hstate, -, -⟩ | hstate | hstate := hk.1.state <;> rw [Known, hstate] <;>
      exact ⟨nofun, nofun⟩

/-- A call is sent before the other node has answered. -/
def greeting : List (Bool × Act) := [(false, .bind), (false, .send 7), (true, .receive),
  (true, .bind), (true, .send 8), (true, .setRole), (true, .receive), (false, .receive),
  (false, .setRole), (false, .receive)]

theorem handshake_greeting : ∃ s, Run (step (.init ⟨[0x4d, 0x58, 10, 0, 0, 2]⟩ 1)) Free
    (start (.node ⟨[0x4d, 0x58, 10, 0, 0, 1]⟩ 0)) greeting s ∧
    s.acceptor.state = .cluster ∧ s.acceptor.received = [7] ∧ s.connector.received = [8] ∧
    (s.acceptor.failed = false ∧ s.connector.failed = false) ∧
    Known (.node ⟨[0x4d, 0x58, 10, 0, 0, 1]⟩ 0) (⟨[0x4d, 0x58, 10, 0, 0, 2]⟩, 1) s := by
  have hrun : Run (step (.init ⟨[0x4d, 0x58, 10, 0, 0, 2]⟩ 1)) Free
    (start (.node ⟨[0x4d, 0x58, 10, 0, 0, 1]⟩ 0)) greeting _ := Machine.exec_run rfl
  have hc : ∀ addr role, Connector.node ⟨[0x4d, 0x58, 10, 0, 0, 1]⟩ 0 = .node addr role →
      addr.connectable = true := by
    intro addr role he
    cases he
    decide
  obtain ⟨hfailed, hknown, -⟩ := handshake (q := (⟨[0x4d, 0x58, 10, 0, 0, 2]⟩, 1)) hc hrun
  exact ⟨_, hrun, rfl, rfl, rfl, hfailed, hknown⟩

end Link

end Kumofs.Rpc
