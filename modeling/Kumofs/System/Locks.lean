import Kumofs.Lib.Lock

/-!
# The locks of the manager and of the server

Which locks each operation takes, and in which order. The manager has `hs_mutex`,
`new_servers_mutex` and `m_replace_mutex`, the server the read-write locks of `whs` and `rhs`,
`m_state_mutex` and `m_accum_set_mutex`. Where an operation branches on what it reads, the branch is
part of it here. A scoped lock is given back at the end of its scope unless it is before; the calls
made under a lock run their callbacks elsewhere. The handlers of `KeepAlive` and `CreateBackup` and
those that only submit a task take none of these locks and are left out.
-/

namespace Kumofs

inductive Lock
  | hs | newServers | replace
  | whs | rhs | state | accumSet
  deriving DecidableEq, Repr

namespace Locks

open Locking

/-- `pthread_scoped_lock` and `pthread_scoped_wrlock`. -/
def lock (l : Lock) : Event Lock := .acquire l .write

/-- `pthread_scoped_rdlock`. -/
def rdlock (l : Lock) : Event Lock := .acquire l .read

def unlock (l : Lock) : Event Lock := .release l

/-! ## The manager -/

/-- `attach_new_servers`, under `hs_mutex`. -/
def attachNewServers : List (Event Lock) := [lock .newServers, unlock .newServers]

/-- `start_replace`, under `hs_mutex`. -/
def startReplace : List (Event Lock) := [lock .replace, unlock .replace]

/-- `finish_replace_copy`, under `m_replace_mutex`. -/
def finishReplaceCopy : List (Event Lock) := [lock .hs, unlock .hs]

inductive ManagerOp
  | addServer
  | removeServer (autoReplace : Bool)
  /-- `replace_election`, which elects itself or delegates. -/
  | replaceElection (self : Bool)
  /-- The callback of `ReplaceElection`, which elects itself or does nothing. -/
  | resReplaceElection (self : Bool)
  /-- The handler of `ReplaceElection`; `delegated` is its last branch. -/
  | onReplaceElection (delegated : Bool)
  /-- `finish` if the last server has ended its copy. -/
  | replaceCopyEnd (finish : Bool)
  | replaceDeleteEnd
  | getNodesInfo
  | attach (replace : Bool)
  | detach (replace : Bool)
  /-- `SetAutoReplace` that turns it on. -/
  | setAutoReplace
  | startReplace
  /-- `HashSpaceRequest`, `WHashSpaceRequest` and `RHashSpaceRequest`. -/
  | hashSpaceRequest
  | hashSpaceSync
  /-- `keep_alive`. -/
  | keepAlive
  | partnerConnected
  deriving DecidableEq, Repr

def ManagerOp.trace : ManagerOp → List (Event Lock)
  | .addServer => [lock .hs, lock .newServers, unlock .newServers, unlock .hs]
  | .removeServer autoReplace =>
    [lock .hs, lock .newServers, unlock .hs, unlock .newServers] ++
      if autoReplace then [] else [lock .replace, unlock .replace]
  | .replaceElection self =>
    [lock .hs] ++ attachNewServers ++ (if self then Locks.startReplace else []) ++ [unlock .hs]
  | .resReplaceElection self =>
    if self then [lock .hs] ++ Locks.startReplace ++ [unlock .hs] else []
  | .onReplaceElection delegated =>
    [lock .hs] ++ (if delegated then attachNewServers ++ Locks.startReplace else []) ++ [unlock .hs]
  | .replaceCopyEnd finish =>
    [lock .replace] ++ (if finish then finishReplaceCopy else []) ++ [unlock .replace]
  | .replaceDeleteEnd => [lock .replace, unlock .replace]
  | .getNodesInfo => [lock .hs, unlock .hs, lock .newServers, unlock .newServers]
  | .attach replace =>
    [lock .hs] ++ attachNewServers ++ (if replace then Locks.startReplace else []) ++ [unlock .hs]
  | .detach replace => [lock .hs] ++ (if replace then Locks.startReplace else []) ++ [unlock .hs]
  | .setAutoReplace => [lock .hs] ++ attachNewServers ++ [unlock .hs]
  | .startReplace => [lock .hs] ++ Locks.startReplace ++ [unlock .hs]
  | .hashSpaceRequest => [lock .hs, unlock .hs]
  | .hashSpaceSync => [lock .hs, lock .newServers, unlock .newServers, unlock .hs]
  | .keepAlive => [lock .newServers, unlock .newServers]
  | .partnerConnected => [lock .hs, unlock .hs]

/-! ## The server -/

/-- How `calc_replicators` ends: the clocktimes are equal or this is not the coordinator, they
differ, or they differ and `rhs` is empty. -/
inductive CalcPath
  | whsOnly | both | notReady
  deriving DecidableEq, Repr

def calcReplicators : CalcPath → List (Event Lock)
  | .whsOnly => [rdlock .whs, unlock .whs]
  | .both => [rdlock .whs, rdlock .rhs, unlock .whs, unlock .rhs]
  | .notReady => [rdlock .whs, rdlock .rhs, unlock .rhs, unlock .whs]

def sendOffer : List (Event Lock) :=
  [lock .accumSet, lock .state, unlock .state, unlock .accumSet]

/-- What a copy sends: an offer each time the limit is reached, and the last one. -/
def sendOffers : ℕ → List (Event Lock)
  | 0 => sendOffer
  | n + 1 => sendOffer ++ sendOffers n

inductive ServerOp
  /-- `Get` and `GetIfModified`. -/
  | get
  /-- `Set` and `Delete`. -/
  | write (path : CalcPath)
  /-- `ReplicateSet` and `ReplicateDelete`. -/
  | replicate (byRhs : Bool)
  /-- `GetStatus` with `STAT_RHS`, `STAT_WHS` and `STAT_REPLACE`. -/
  | statRhs
  | statWhs
  | statReplace
  | hashSpaceSync
  /-- The callbacks of `WHashSpaceRequest` and `RHashSpaceRequest`. -/
  | resWHashSpaceRequest
  | resRHashSpaceRequest
  /-- `replace_copy`, which is skipped or sends offers. -/
  | replaceCopy (limits : Option ℕ)
  | fullReplaceCopy (limits : ℕ)
  | replaceDelete
  /-- The callback of `ReplaceOffer`. -/
  | resReplaceOffer
  /-- `stream_accepted`; `sent` if the final nil was read. -/
  | streamAccepted (sent : Bool)
  deriving DecidableEq, Repr

def ServerOp.trace : ServerOp → List (Event Lock)
  | .get => [rdlock .rhs, unlock .rhs]
  | .write path => calcReplicators path
  | .replicate byRhs =>
    if byRhs then [rdlock .rhs, unlock .rhs] else [rdlock .whs, unlock .whs]
  | .statRhs => [rdlock .rhs, unlock .rhs]
  | .statWhs => [rdlock .whs, unlock .whs]
  | .statReplace => [rdlock .rhs, rdlock .whs, unlock .whs, unlock .rhs]
  | .hashSpaceSync => [lock .whs, lock .rhs, unlock .rhs, unlock .whs]
  | .resWHashSpaceRequest => [lock .whs, unlock .whs]
  | .resRHashSpaceRequest => [lock .rhs, unlock .rhs]
  | .replaceCopy limits =>
    [lock .state, unlock .state, lock .whs, lock .rhs, unlock .rhs, unlock .whs] ++
      (limits.elim [] sendOffers ++ [lock .state, unlock .state])
  | .fullReplaceCopy limits =>
    [lock .state, unlock .state] ++ (sendOffers limits ++ [lock .state, unlock .state])
  | .replaceDelete => [rdlock .whs, lock .rhs, unlock .rhs, unlock .whs]
  | .resReplaceOffer => [lock .accumSet, unlock .accumSet]
  | .streamAccepted sent =>
    [lock .accumSet, unlock .accumSet] ++ if sent then [lock .state, unlock .state] else []

/-- The processes share no lock, so those of one manager and one server run together here. -/
inductive Op
  | manager (op : ManagerOp)
  | server (op : ServerOp)
  deriving DecidableEq, Repr

def Op.trace : Op → List (Event Lock)
  | .manager op => op.trace
  | .server op => op.trace

end Locks

end Kumofs
