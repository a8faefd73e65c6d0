import Kumofs.Hash

/-!
# A manager

`logic/manager/mod_replace.cc`, `mod_network.cc`, `mod_control.cc` and the node events of
`framework.cc`. A handler runs under `hs_mutex`, so it is one function from the manager's state to
the next one and what it sends. Two of them are more than one. `finish_replace_copy` sends the
delete phase off under `m_replace_mutex` and takes `hs_mutex` only afterwards, to publish `whs` as
the new `rhs`. `remove_server` takes its clocktime before `hs_mutex`, and `m_replace_mutex` after
it. Other handlers may run in between, but none that has to take a mutex which is held.

`cfg_auto_replace` and `m_delayed_replace_cas` have no mutex. `add_server` and `remove_server` test
the one after they have released `hs_mutex`, `SetAutoReplace` sets it before it takes it, and
`cas_checked_replace_election` compares the other before. Here each of these is one with what is
done under `hs_mutex`; `Delayed` takes them apart.
-/

namespace Kumofs

/-- `mod_replace_t::progress`: the servers a phase of a replace still waits for. -/
structure Progress where
  remainder : List Address
  targetNodes : List Address
  clocktime : ClockTime
  deriving DecidableEq, Repr

namespace Progress

def init : Progress := ⟨[], [], .zero⟩

def reset (replaceTime : ClockTime) (nodes : List Address) : Progress := ⟨nodes, nodes, replaceTime⟩

def pop (p : Progress) (replaceTime : ClockTime) (node : Address) : Progress × Bool :=
  if p.clocktime ≠ replaceTime then (p, false)
  else if p.remainder = [] then (p, false)
  else
    let r := p.remainder.filter (· ≠ node)
    ({ p with remainder := r }, r.isEmpty)

end Progress

/-- What managers send each other; a `ReplaceElection` call has a number, and its result too. -/
inductive PartnerMsg
  | hashSpaceSync (wseed rseed : Seed) (adjustClock : UInt32)
  | replaceElection (call : ℕ) (hsseed : Seed) (adjustClock : UInt32)
  | replaceElectionResult (call : ℕ) (res : Option Bool)
  deriving DecidableEq, Repr

/-- What a manager sends servers. -/
inductive ServerMsg
  | hashSpaceSync (wseed rseed : Seed) (adjustClock : UInt32)
  | replaceCopyStart (hsseed : Seed) (adjustClock : UInt32) (full : Bool)
  | replaceDeleteStart (hsseed : Seed) (adjustClock : UInt32)
  deriving DecidableEq, Repr

inductive Out
  | partner (m : PartnerMsg)
  | servers (dests : List Address) (m : ServerMsg)
  | clients (wseed rseed : Seed)
  deriving DecidableEq, Repr

/-- An element of `new_servers`, a weak pointer to a connected node. -/
structure WeakNode where
  addr : Address
  expired : Bool
  deriving DecidableEq, Repr

-- for membership among the servers that are being removed
instance : LawfulBEq (Address × ClockTime) := inferInstance

structure Manager where
  addr : Address
  partner : Address
  clock : ClockLogic
  whs : HashSpace
  rhs : HashSpace
  newServers : List WeakNode
  /-- The connected nodes of role server, over which `for_each_node` goes. -/
  nodes : List Address
  copying : Progress
  deleting : Progress
  /-- `finish_replace_copy` has `m_replace_mutex` and waits for `hs_mutex`. -/
  finishing : Bool
  /-- The `remove_server` calls that have their clocktime and wait for `hs_mutex`. -/
  removing : List (Address × ClockTime)
  /-- The number of `remove_server` calls that wait for `m_replace_mutex`. -/
  invalidating : ℕ
  autoReplace : Bool
  delayedReplaceCas : UInt32
  /-- The `cas_checked_replace_election` calls that `do_after` is to make. -/
  timers : List UInt32
  /-- The `ReplaceElection` calls without an answer yet, and the number of the next. -/
  calls : List ℕ
  nextCall : ℕ

namespace Manager

def init (addr partner : Address) (clock : ClockLogic) (autoReplace : Bool) : Manager :=
  ⟨addr, partner, clock, .init, .init, [], [], .init, .init, false, [], 0, autoReplace, 0, [], [], 0⟩

/-- One handler after another. -/
def andThen (r : Manager × List Out) (f : Manager → Manager × List Out) : Manager × List Out :=
  ((f r.1).1, r.2 ++ (f r.1).2)

def clockIncr (m : Manager) : Manager := { m with clock := m.clock.clockIncr.2 }

def clockUpdate (m : Manager) (c : UInt32) : Manager := { m with clock := m.clock.clockUpdate c }

/-- The clocktime `clock_incr_clocktime` returns next. -/
def nextClocktime (m : Manager) : ClockTime := m.clock.clockIncrClocktime.1

/-! ## Sending hash spaces -/

def syncHashSpacePartner (m : Manager) : Manager × List Out :=
  if m.partner.connectable then
    (m.clockIncr, [.partner (.hashSpaceSync m.whs.seed m.rhs.seed m.clock.clockIncr.1)])
  else (m, [])

def syncHashSpaceServers (m : Manager) : Manager × List Out :=
  (m.clockIncr, [.servers m.nodes (.hashSpaceSync m.whs.seed m.rhs.seed m.clock.clockIncr.1)])

def pushHashSpaceClients (m : Manager) : Manager × List Out :=
  (m, [.clients m.whs.seed m.rhs.seed])

/-! ## Membership -/

section Membership

variable (hash : Bytes → UInt64)

/-- The loop of `attach_new_servers` over `new_servers`. -/
def attachAll (ct : ClockTime) (whs : HashSpace) : List WeakNode → HashSpace
  | [] => whs
  | n :: ns =>
    if n.expired then attachAll ct whs ns
    else if whs.serverIsInclude n.addr then attachAll ct (whs.recoverServer ct n.addr).1 ns
    else attachAll ct (whs.addServer hash ct n.addr) ns

def attachNewServers (m : Manager) : Manager × List Out :=
  syncHashSpacePartner
    { m.clockIncr with whs := attachAll hash m.nextClocktime m.whs m.newServers, newServers := [] }

def detachFaultServers (m : Manager) : Manager × List Out :=
  syncHashSpacePartner
    { m.clockIncr with whs := (m.whs.removeFaultServers hash m.nextClocktime).1 }

/-- `start_replace`. -/
def startReplace (full : Bool) (m : Manager) : Manager × List Out :=
  andThen
    ({ m.clockIncr with
        copying := .reset m.whs.clocktime m.nodes, deleting := .init },
      [.servers m.nodes (.replaceCopyStart m.whs.seed m.clock.clockIncr.1 full)])
    pushHashSpaceClients

/-- The call of `ReplaceElection` to the partner. -/
def delegateReplace (m : Manager) : Manager × List Out :=
  ({ m.clockIncr with calls := m.nextCall :: m.calls, nextCall := m.nextCall + 1 },
    [.partner (.replaceElection m.nextCall m.whs.seed m.clock.clockIncr.1)])

/-- The smaller address has priority. -/
def replaceElection (m : Manager) : Manager × List Out :=
  let r := andThen (attachNewServers hash m) (detachFaultServers hash)
  if m.partner.connectable ∧ m.partner < m.addr then andThen r delegateReplace
  else andThen r (startReplace false)

def delayedReplaceElection (m : Manager) : Manager :=
  { m with
    delayedReplaceCas := m.delayedReplaceCas + 1
    timers := m.timers ++ [m.delayedReplaceCas + 1] }

/-- `cas_checked_replace_election`, which a later `delayed_replace_election` overtakes. -/
def casCheckedReplaceElection (cas : UInt32) (m : Manager) : Manager × List Out :=
  if m.delayedReplaceCas = cas then replaceElection hash m else (m, [])

/-- `new_node` of a server, and `add_server`. -/
def addServer (a : Address) (m : Manager) : Manager :=
  let m := { m with nodes := if a ∈ m.nodes then m.nodes else m.nodes ++ [a] }
  if m.whs.serverIsActive a then m
  else
    let m := { m with newServers := m.newServers ++ [WeakNode.mk a false] }
    if m.autoReplace then m.delayedReplaceElection else m

/-- `lost_node` of a server: `remove_server` up to where it takes `hs_mutex`. -/
def removeServer (a : Address) (m : Manager) : Manager :=
  { m.clockIncr with
    nodes := m.nodes.filter (· ≠ a)
    removing := m.removing ++ [(a, m.nextClocktime)] }

/-- Both hash spaces are stamped with one clocktime. -/
def faultServer (ct : ClockTime) (a : Address) (m : Manager) : Manager × List Out :=
  let w := m.whs.faultServer ct a
  let r := m.rhs.faultServer ct a
  let m := { m with whs := w.1, rhs := r.1 }
  if w.2 || r.2 then
    andThen (andThen (syncHashSpacePartner m) syncHashSpaceServers) pushHashSpaceClients
  else (m, [])

/-- `remove_server` under `hs_mutex` and `new_servers_mutex`, and what it does then. -/
def removeServerLocked (a : Address) (ct : ClockTime) (m : Manager) : Manager × List Out :=
  andThen (faultServer ct a { m with removing := m.removing.erase (a, ct) }) fun m =>
    let m := { m with newServers := m.newServers.filter fun n => !n.expired && n.addr ≠ a }
    if m.autoReplace then (m.delayedReplaceElection, [])
    else ({ m with invalidating := m.invalidating + 1 }, [])

/-- The end of `remove_server`, under `m_replace_mutex`: prevent replace delete. -/
def invalidateCopying (m : Manager) : Manager :=
  { m with copying := .init, invalidating := m.invalidating - 1 }

end Membership

/-! ## Messages from the partner -/

section Partner

variable (hash : Bytes → UInt64)

/-- `HashSpaceSync`. -/
def hashSpaceSync (wseed rseed : Seed) (adjustClock : UInt32) (m : Manager) : Manager :=
  let m := m.clockUpdate adjustClock
  let whs :=
    if !wseed.empty && (m.whs.empty || m.whs.clocktime ≤ wseed.clocktime) then .ofSeed hash wseed
    else m.whs
  let rhs :=
    if !rseed.empty && (m.rhs.empty || m.rhs.clocktime ≤ rseed.clocktime) then .ofSeed hash rseed
    else m.rhs
  { m with
    whs := whs
    rhs := rhs
    newServers := m.newServers.filter fun n => !n.expired && !whs.serverIsActive n.addr }

/-- `ReplaceElection`, with the response if there is one: where the partner's hash space is newer
or has the same nodes, none is sent. -/
def onReplaceElection (hsseed : Seed) (adjustClock : UInt32) (m : Manager) :
    (Manager × List Out) × Option (Option Bool) :=
  let m := m.clockUpdate adjustClock
  if hsseed.empty ∨ hsseed.clocktime < m.whs.clocktime then ((m, []), some (some true))
  else if m.whs.clocktime < hsseed.clocktime ∨ m.whs.nodes = hsseed.nodes then ((m, []), none)
  else if m.partner < m.addr then ((m, []), some none)
  else
    (andThen (andThen (attachNewServers hash m) (detachFaultServers hash)) (startReplace false),
      some (some true))

/-- The reply callback of `ReplaceElection`; `none` is an error or nil. -/
def onElectionResult (call : ℕ) (res : Option Bool) (m : Manager) : Manager × List Out :=
  let m := { m with calls := m.calls.erase call }
  if res = none then startReplace false m else (m, [])

end Partner

/-! ## Messages from the servers -/

/-- `finish_replace_copy` up to where it takes `hs_mutex`. -/
def finishReplaceCopy (m : Manager) : Manager × List Out :=
  ({ m.clockIncr with
      copying := .init
      deleting := .reset m.copying.clocktime m.copying.targetNodes
      finishing := true },
    [.servers m.copying.targetNodes (.replaceDeleteStart m.whs.seed m.clock.clockIncr.1)])

/-- The end of `finish_replace_copy`, under `hs_mutex`. -/
def publish (m : Manager) : Manager × List Out :=
  andThen (pushHashSpaceClients { m with rhs := m.whs, finishing := false }) syncHashSpacePartner

def replaceCopyEnd (replaceTime : ClockTime) (adjustClock : UInt32) (from' : Address)
    (m : Manager) : Manager × List Out :=
  let m := m.clockUpdate adjustClock
  let p := m.copying.pop replaceTime from'
  let m := { m with copying := p.1 }
  if p.2 then finishReplaceCopy m else (m, [])

def replaceDeleteEnd (replaceTime : ClockTime) (adjustClock : UInt32) (from' : Address)
    (m : Manager) : Manager :=
  let m := m.clockUpdate adjustClock
  let p := m.deleting.pop replaceTime from'
  { m with deleting := if p.2 then .init else p.1 }

/-! ## The administrator's commands -/

section Control

variable (hash : Bytes → UInt64)

def controlAttach (replace : Bool) (m : Manager) : Manager × List Out :=
  if replace then andThen (attachNewServers hash m) (startReplace false) else attachNewServers hash m

def controlDetach (replace : Bool) (m : Manager) : Manager × List Out :=
  if replace then andThen (detachFaultServers hash m) (startReplace false)
  else detachFaultServers hash m

def setAutoReplace (enable : Bool) (m : Manager) : Manager × List Out :=
  if m.autoReplace && !enable then ({ m with autoReplace := false }, [])
  else if !m.autoReplace && enable then
    andThen (attachNewServers hash { m with autoReplace := true }) (detachFaultServers hash)
  else (m, [])

end Control

end Manager

end Kumofs
