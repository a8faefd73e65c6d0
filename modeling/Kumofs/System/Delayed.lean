import Kumofs.System.DoAfter
import Kumofs.System.Managers
import Mathlib.Algebra.Group.Int.Defs

/-!
# Elections after a delay

Two managers with the timers of `delayed_replace_election` of `logic/manager/mod_replace.cc`.
`cfg_auto_replace` and `m_delayed_replace_cas` have no mutex, so what reads or writes them is cut
there, and others may come in between. The other handlers are those of `Managers`.
-/

namespace Kumofs

/-! ## What the handlers do with a mutex -/

namespace Manager

/-- `new_node` of a server, and `add_server` up to where it releases `hs_mutex`, with `change`. -/
def addServerHeld (a : Address) (m : Manager) : Manager × Bool :=
  let m := { m with nodes := if a ∈ m.nodes then m.nodes else m.nodes ++ [a] }
  if m.whs.serverIsActive a then (m, false)
  else ({ m with newServers := m.newServers ++ [WeakNode.mk a false] }, true)

/-- `remove_server` under `hs_mutex` and `new_servers_mutex`. -/
def removeServerHeld (a : Address) (ct : ClockTime) (m : Manager) : Manager × List Out :=
  andThen (faultServer ct a { m with removing := m.removing.erase (a, ct) }) fun m =>
    ({ m with newServers := m.newServers.filter fun n => !n.expired && n.addr ≠ a }, [])

/-- `SetAutoReplace` under `hs_mutex`. -/
def attachDetach (hash : Bytes → UInt64) (m : Manager) : Manager × List Out :=
  andThen (attachNewServers hash m) (detachFaultServers hash)

end Manager

/-! ## What a manager is doing -/

/-- `cfg_replace_delay_seconds` is a `short`. It is multiplied as an `unsigned long`, and `do_after`
takes the product as an `unsigned int`. -/
def delaySteps (seconds : Int16) : ℕ := (seconds.toInt * doAfterBySeconds.toNat % 2 ^ 32).toNat

/-- The calls at a manager that are between two steps. -/
structure Underway where
  /-- The `add_server` calls that have pushed a server and not tested `auto_replace`. -/
  added : ℕ
  /-- The `remove_server` calls that have not tested it. -/
  removed : ℕ
  /-- What the `SetAutoReplace` calls that have tested it are to store. -/
  setting : List Bool
  /-- The number of those that have turned it on and wait for `hs_mutex`. -/
  attaching : ℕ
  /-- The `delayed_replace_election` calls without a number. -/
  delaying : ℕ
  /-- The numbers with which `do_after` is about to be called. -/
  asking : List UInt32
  /-- The `cas_checked_replace_election` calls that have found their number to be the last. -/
  electing : ℕ
  deriving DecidableEq, Repr

structure Delayed where
  net : Managers
  calls : Bool → Underway
  server : Bool → WavyServer UInt32

namespace Delayed

structure Config where
  hash : Bytes → UInt64
  replaceDelaySeconds : Bool → Int16

def init (net : Managers) (clockIntervalUsec : Bool → UInt64) : Delayed where
  net := net
  calls _ := ⟨0, 0, [], 0, 0, [], 0⟩
  server i := .init (clockIntervalUsec i)

inductive Act
  /-- A handler that is not cut. -/
  | handle (a : Managers.Act)
  | connect (i : Bool) (a : Address)
  | added (i : Bool)
  | removeLocked (i : Bool) (a : Address) (ct : ClockTime)
  | removed (i : Bool)
  | setAutoReplace (i : Bool) (enable : Bool)
  | store (i : Bool) (enable : Bool)
  | attach (i : Bool)
  | delayedReplaceElection (i : Bool)
  | doAfter (i : Bool) (cas : UInt32)
  | timerHandler (i : Bool)
  | timerStep (i : Bool) (k : ℕ)
  | stepDoAfter (i : Bool)
  /-- A `step_do_after` calls its next `cas_checked_replace_election`. -/
  | call (i : Bool) (k : ℕ)
  | replaceElection (i : Bool)
  deriving DecidableEq, Repr

/-- The handlers of `Managers` that are taken as they are. -/
def Whole : Managers.Act → Bool
  | .connect _ _ | .removeLocked _ _ _ | .setAutoReplace _ _ | .fire _ _ => false
  | _ => true

variable (cfg : Config) (s : Delayed)

def setServer (i : Bool) (x : WavyServer UInt32) : Delayed :=
  { s with server := Function.update s.server i x }

def setCalls (i : Bool) (c : Underway) : Delayed :=
  { s with calls := Function.update s.calls i c }

/-- A handler's end, or the end of a part of it. -/
def finish (i : Bool) (r : Manager × List Out) (c : Underway) : Option Delayed :=
  (s.net.finish i r).map fun net => { s with net := net }.setCalls i c

def step (s : Delayed) : Act → Option Delayed
  | .handle a =>
    if Whole a then (s.net.step cfg.hash a).map fun net => { s with net := net } else none
  | .connect i a =>
    let r := (s.net.mgr i).addServerHeld a
    let c := s.calls i
    s.finish i (r.1, []) { c with added := c.added + if r.2 then 1 else 0 }
  | .added i =>
    let m := s.net.mgr i
    let c := s.calls i
    if c.added = 0 then none
    else s.finish i (m, [])
      { c with added := c.added - 1, delaying := c.delaying + if m.autoReplace then 1 else 0 }
  | .removeLocked i a ct =>
    let m := s.net.mgr i
    let c := s.calls i
    if (a, ct) ∈ m.removing then
      s.finish i (m.removeServerHeld a ct) { c with removed := c.removed + 1 }
    else none
  | .removed i =>
    let m := s.net.mgr i
    let c := s.calls i
    if c.removed = 0 then none
    else if m.autoReplace then
      s.finish i (m, []) { c with removed := c.removed - 1, delaying := c.delaying + 1 }
    else
      s.finish i ({ m with invalidating := m.invalidating + 1 }, [])
        { c with removed := c.removed - 1 }
  | .setAutoReplace i enable =>
    let c := s.calls i
    if (s.net.mgr i).autoReplace = enable then some s
    else some (s.setCalls i { c with setting := c.setting ++ [enable] })
  | .store i enable =>
    let c := s.calls i
    if enable ∈ c.setting then
      s.finish i ({ s.net.mgr i with autoReplace := enable }, [])
        { c with
          setting := c.setting.erase enable
          attaching := c.attaching + if enable then 1 else 0 }
    else none
  | .attach i =>
    let c := s.calls i
    if c.attaching = 0 then none
    else s.finish i ((s.net.mgr i).attachDetach cfg.hash) { c with attaching := c.attaching - 1 }
  | .delayedReplaceElection i =>
    let m := s.net.mgr i
    let c := s.calls i
    if c.delaying = 0 then none
    else s.finish i (m.delayedReplaceElection, [])
      { c with delaying := c.delaying - 1, asking := c.asking ++ [m.delayedReplaceCas + 1] }
  | .doAfter i cas =>
    let c := s.calls i
    if cas ∈ c.asking then
      some ((s.setCalls i { c with asking := c.asking.erase cas }).setServer i
        ((s.server i).ask (delaySteps (cfg.replaceDelaySeconds i)) cas))
    else none
  | .timerHandler i => some (s.setServer i (s.server i).timerHandler)
  | .timerStep i k => ((s.server i).timerStep k).map (s.setServer i)
  | .stepDoAfter i => (s.server i).stepDoAfter.map (s.setServer i)
  | .call i k =>
    let m := s.net.mgr i
    let c := s.calls i
    ((s.server i).call k).bind fun r =>
      ((s.setServer i r.2).finish i ({ m with timers := m.timers.erase r.1 }, []))
        { c with electing := c.electing + if m.delayedReplaceCas = r.1 then 1 else 0 }
  | .replaceElection i =>
    let c := s.calls i
    if c.electing = 0 then none
    else s.finish i ((s.net.mgr i).replaceElection cfg.hash) { c with electing := c.electing - 1 }

end Delayed

end Kumofs
