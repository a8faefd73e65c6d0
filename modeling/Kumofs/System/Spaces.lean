import Kumofs.Lib.Run
import Kumofs.Server.Store

/-!
# The hash spaces of a server

What changes `whs` and `rhs` of a server: `HashSpaceSync` and the replies of `WHashSpaceRequest` and
`RHashSpaceRequest` of `logic/server/mod_network.cc`, and the tasks of `logic/server/mod_replace.cc`.
`ReplaceCopyStart` and `ReplaceDeleteStart` only submit a task, and the pool runs the tasks in any
order; of a task this is the part under the mutexes of the hash spaces.
-/

namespace Kumofs

namespace Server

variable (hash : Bytes → UInt64)

/-- `HashSpaceSync`, with its response. -/
def hashSpaceSync (wseed rseed : Seed) (adjustClock : UInt32) (st : State) : State × Response :=
  let w := st.whs.clocktime ≤ wseed.clocktime && !wseed.empty
  let r := st.rhs.clocktime ≤ rseed.clocktime && !rseed.empty
  ({ st with
      clock := st.clock.clockUpdate adjustClock
      whs := if w then .ofSeed hash wseed else st.whs
      rhs := if r then .ofSeed hash rseed else st.rhs },
    if w || r then .bool true else .null)

/-- What the replies of `WHashSpaceRequest` and `RHashSpaceRequest` make of a hash space. -/
def renew (hs : HashSpace) (hsseed : Seed) : HashSpace :=
  if hs.empty || hs.clocktime < hsseed.clocktime then .ofSeed hash hsseed else hs

/-- The reply of `WHashSpaceRequest`; after an error the request is sent again. -/
def resWHashSpaceRequest (hsseed : Seed) (st : State) : State :=
  { st with whs := renew hash st.whs hsseed }

def resRHashSpaceRequest (hsseed : Seed) (st : State) : State :=
  { st with rhs := renew hash st.rhs hsseed }

/-- What `ReplaceCopyStart` and `ReplaceDeleteStart` submit to the pool. -/
inductive Task
  | replaceCopy (hs : HashSpace)
  | fullReplaceCopy (hs : HashSpace)
  | replaceDelete (hs : HashSpace)
  deriving DecidableEq

/-- `replace_copy` under `whs_mutex`; `full_replace_copy` takes neither mutex; `replace_delete`
under both, where its argument is not used. -/
def runTask (st : State) : Task → State
  | .replaceCopy hs => { st with whs := hs }
  | .fullReplaceCopy _ => st
  | .replaceDelete _ => { st with rhs := st.whs }

end Server

structure Spaces where
  server : Server.State
  tasks : List Server.Task

namespace Spaces

open Server

inductive Act
  | hashSpaceSync (wseed rseed : Seed) (adjustClock : UInt32)
  | resWHashSpaceRequest (hsseed : Seed)
  | resRHashSpaceRequest (hsseed : Seed)
  | replaceCopyStart (hsseed : Seed) (adjustClock : UInt32) (full : Bool)
  | replaceDeleteStart (hsseed : Seed) (adjustClock : UInt32)
  /-- The pool runs a task. -/
  | run (k : ℕ)

def step (hash : Bytes → UInt64) (s : Spaces) : Act → Option Spaces
  | .hashSpaceSync wseed rseed adjustClock =>
    some { s with server := (Server.hashSpaceSync hash wseed rseed adjustClock s.server).1 }
  | .resWHashSpaceRequest hsseed =>
    some { s with server := Server.resWHashSpaceRequest hash hsseed s.server }
  | .resRHashSpaceRequest hsseed =>
    some { s with server := Server.resRHashSpaceRequest hash hsseed s.server }
  | .replaceCopyStart hsseed adjustClock full =>
    let hs := HashSpace.ofSeed hash hsseed
    some
      { server := { s.server with clock := s.server.clock.clockUpdate adjustClock }
        tasks := s.tasks ++ [if full then .fullReplaceCopy hs else .replaceCopy hs] }
  | .replaceDeleteStart hsseed adjustClock =>
    some
      { server := { s.server with clock := s.server.clock.clockUpdate adjustClock }
        tasks := s.tasks ++ [.replaceDelete (.ofSeed hash hsseed)] }
  | .run k =>
    s.tasks[k]?.map fun task => ⟨runTask s.server task, s.tasks.eraseIdx k⟩

/-- A hash space with an active node is replaced by an older one. -/
def older (hs hs' : HashSpace) : Bool := !hs.empty && hs'.clocktime < hs.clocktime

/-- No step of these takes a hash space back. -/
def NeverBack (hash : Bytes → UInt64) : Spaces → List Act → Prop
  | _, [] => True
  | s, a :: as => ∀ t ∈ step hash s a,
    (older s.server.whs t.server.whs = false ∧ older s.server.rhs t.server.rhs = false) ∧
      NeverBack hash t as

end Spaces

end Kumofs
