import Kumofs.Lib.Run
import Kumofs.Manager

/-!
# Two managers

Two managers that may be each other's partner, the messages between them in flight, and what each
has sent the servers. A message is handled at any time and in any order, or never. The servers are
the environment: they connect, get lost and report the end of a phase whenever they like.
-/

namespace Kumofs

structure Managers where
  mgr : Bool → Manager
  /-- The messages on their way to each manager. -/
  inbox : Bool → List PartnerMsg
  /-- What each manager has sent servers, the last first. -/
  log : Bool → List (List Address × ServerMsg)

namespace Managers

inductive Act
  | connect (i : Bool) (a : Address)
  | lost (i : Bool) (a : Address)
  /-- A `remove_server` call gets `hs_mutex`. -/
  | removeLocked (i : Bool) (a : Address) (ct : ClockTime)
  /-- A `remove_server` call gets `m_replace_mutex`. -/
  | invalidate (i : Bool)
  | fire (i : Bool) (cas : UInt32)
  | partnerConnected (i : Bool)
  | deliver (i : Bool) (k : ℕ)
  | electionFailed (i : Bool) (call : ℕ)
  | attach (i : Bool) (replace : Bool)
  | detach (i : Bool) (replace : Bool)
  | setAutoReplace (i : Bool) (enable : Bool)
  | startReplace (i : Bool) (full : Bool)
  | copyEnd (i : Bool) (replaceTime : ClockTime) (adjustClock : UInt32) (a : Address)
  | publish (i : Bool)
  | deleteEnd (i : Bool) (replaceTime : ClockTime) (adjustClock : UInt32) (a : Address)
  /-- `KeepAlive` from another node, and `keep_alive` of this one. -/
  | clockUpdate (i : Bool) (c : UInt32)
  | keepAlive (i : Bool)
  | time (i : Bool) (t : UInt32)
  /-- A node of `new_servers` is gone. -/
  | expire (i : Bool) (k : ℕ)
  deriving DecidableEq, Repr

def init (addr partner : Bool → Address) (clock : Bool → ClockLogic) (auto : Bool → Bool) :
    Managers where
  mgr i := .init (addr i) (partner i) (clock i) (auto i)
  inbox _ := []
  log _ := []

/-! ## Sending -/

def partnerMsgs (outs : List Out) : List PartnerMsg :=
  outs.filterMap fun | .partner m => some m | _ => none

def serverMsgs (outs : List Out) : List (List Address × ServerMsg) :=
  outs.filterMap fun | .servers dests m => some (dests, m) | _ => none

/-- The `Seed` of a `ReplaceCopyStart`. -/
def copyStart? : List Address × ServerMsg → Option Seed
  | (_, .replaceCopyStart hsseed _ _) => some hsseed
  | _ => none

/-- The `Seed` that the last `start_replace` of a manager sent. -/
def lastCopy (s : Managers) (i : Bool) : Option Seed := (s.log i).findSome? copyStart?

/-- A handler's end: `start_replace` cannot get `m_replace_mutex` from `finish_replace_copy`. -/
def finish (s : Managers) (i : Bool) (r : Manager × List Out) : Option Managers :=
  if (s.mgr i).finishing ∧ (serverMsgs r.2).any (copyStart? · |>.isSome) then none
  else some
    { mgr := Function.update s.mgr i r.1
      inbox := Function.update s.inbox (!i) (s.inbox (!i) ++
        if (s.mgr i).partner = (s.mgr !i).addr then partnerMsgs r.2 else [])
      log := Function.update s.log i ((serverMsgs r.2).reverse ++ s.log i) }

/-- The response of a `ReplaceElection` call goes back to the caller. -/
def answer (s : Managers) (i : Bool) (call : ℕ) : Option (Option Bool) → Managers
  | none => s
  | some res =>
    { s with
      inbox := Function.update s.inbox (!i) (s.inbox (!i) ++ [.replaceElectionResult call res]) }

/-! ## Steps -/

section Step

variable (hash : Bytes → UInt64)

/-- A message to manager `i`, which only takes the requests of its partner. -/
def receive (s : Managers) (i : Bool) : PartnerMsg → Option Managers
  | .hashSpaceSync wseed rseed adjustClock =>
    if (s.mgr !i).addr ≠ (s.mgr i).partner then some s
    else s.finish i ((s.mgr i).hashSpaceSync hash wseed rseed adjustClock, [])
  | .replaceElection call hsseed adjustClock =>
    if (s.mgr !i).addr ≠ (s.mgr i).partner then some (s.answer i call (some none))
    else
      let r := (s.mgr i).onReplaceElection hash hsseed adjustClock
      (s.finish i r.1).map (·.answer i call r.2)
  | .replaceElectionResult call res =>
    if call ∈ (s.mgr i).calls then s.finish i ((s.mgr i).onElectionResult call res) else some s

def step (s : Managers) : Act → Option Managers
  | .connect i a => s.finish i ((s.mgr i).addServer a, [])
  | .lost i a => s.finish i ((s.mgr i).removeServer a, [])
  | .removeLocked i a ct =>
    if (a, ct) ∈ (s.mgr i).removing then s.finish i ((s.mgr i).removeServerLocked a ct) else none
  | .invalidate i =>
    if (s.mgr i).invalidating = 0 ∨ (s.mgr i).finishing then none
    else s.finish i ((s.mgr i).invalidateCopying, [])
  | .fire i cas =>
    if cas ∈ (s.mgr i).timers then
      s.finish i ({ s.mgr i with timers := (s.mgr i).timers.erase cas }.casCheckedReplaceElection
        hash cas)
    else none
  | .partnerConnected i => s.finish i (s.mgr i).syncHashSpacePartner
  | .deliver i k =>
    ((s.inbox i)[k]?).bind fun msg =>
      receive hash { s with inbox := Function.update s.inbox i ((s.inbox i).eraseIdx k) } i msg
  | .electionFailed i call =>
    if call ∈ (s.mgr i).calls then s.finish i ((s.mgr i).onElectionResult call none) else none
  | .attach i replace => s.finish i ((s.mgr i).controlAttach hash replace)
  | .detach i replace => s.finish i ((s.mgr i).controlDetach hash replace)
  | .setAutoReplace i enable => s.finish i ((s.mgr i).setAutoReplace hash enable)
  | .startReplace i full => s.finish i ((s.mgr i).startReplace full)
  | .copyEnd i replaceTime adjustClock a =>
    if (s.mgr i).finishing then none
    else s.finish i ((s.mgr i).replaceCopyEnd replaceTime adjustClock a)
  | .publish i => if (s.mgr i).finishing then s.finish i (s.mgr i).publish else none
  | .deleteEnd i replaceTime adjustClock a =>
    if (s.mgr i).finishing then none
    else s.finish i ((s.mgr i).replaceDeleteEnd replaceTime adjustClock a, [])
  | .clockUpdate i c => s.finish i ((s.mgr i).clockUpdate c, [])
  | .keepAlive i => s.finish i ((s.mgr i).clockIncr, [])
  | .time i t => s.finish i ({ s.mgr i with clock := (s.mgr i).clock.clockUpdateTime t }, [])
  | .expire i k =>
    s.finish i ({ s.mgr i with newServers := (s.mgr i).newServers.modify k ({ · with expired := true }) },
      [])

end Step

end Managers

end Kumofs
