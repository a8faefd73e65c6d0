import Kumofs.Hash
import Kumofs.Lib.Run

/-!
# The streams a server offers

`logic/server/mod_replace_stream.cc`. A copy task gathers its records in an `offer_storage`, one
`stream_accumulator` to each receiver; `send_offer` puts them into `m_accum_set` and calls
`ReplaceOffer` at every receiver. The set is looked up by the receiver's address. That call is never
answered, so its callback runs when it times out or fails; before that the receiver connects, reads
the stream and sends a nil.

An accumulator is shared by pointer, so it has an identity besides its address. What a record is
does not matter here.
-/

namespace Kumofs

/-- `stream_accumulator`; `ident` stands for the pointer. -/
structure Accumulator (ρ : Type*) where
  ident : ℕ
  addr : Address
  replaceTime : ClockTime
  items : List ρ
  deriving DecidableEq, Repr

/-- `accum_set_find`: `std::lower_bound` in a set sorted by address. -/
def accumSetFind {ρ : Type*} (set : List (Accumulator ρ)) (addr : Address) : Option ℕ :=
  let it := set.findIdx fun x => !decide (x.addr < addr)
  if (set[it]?).any (·.addr = addr) then some it else none

/-- `offer_storage::add`, with the next free pointer. -/
def offerAdd {ρ : Type*} (replaceTime : ClockTime) (s : List (Accumulator ρ) × ℕ)
    (kv : Address × ρ) : List (Accumulator ρ) × ℕ :=
  match accumSetFind s.1 kv.1 with
  | some it => (s.1.modify it fun x => { x with items := x.items ++ [kv.2] }, s.2)
  | none =>
    ((s.1 ++ [Accumulator.mk s.2 kv.1 replaceTime [kv.2]]).insertionSort
      fun x y => x.addr ≤ y.addr, s.2 + 1)

structure Offers (ρ : Type*) where
  /-- `m_accum_set`. -/
  accumSet : List (Accumulator ρ)
  /-- The `ReplaceOffer` calls in flight: the address bound to the callback, and the accumulator
  the call was made for, which no code reads. -/
  calls : List (Address × ℕ)
  nextIdent : ℕ

namespace Offers

variable {ρ : Type*}

def init : Offers ρ := ⟨[], [], 0⟩

inductive Act (ρ : Type*)
  /-- `send_offer` of what these `offer_storage::add`s have gathered. -/
  | sendOffer (replaceTime : ClockTime) (adds : List (Address × ρ))
  /-- The callback of call `k`. -/
  | resReplaceOffer (k : ℕ)
  /-- `stream_accepted` from that address; `acked` if the final nil was read, else it throws. -/
  | streamAccepted (iaddr : Address) (acked : Bool)
  deriving DecidableEq, Repr

/-- `m_accum_set.erase(it)`, if the address is found. -/
def eraseFound (set : List (Accumulator ρ)) (addr : Address) : List (Accumulator ρ) :=
  (accumSetFind set addr).elim set set.eraseIdx

/-- `offer_storage::commit` overwrites the set. -/
def sendOffer (s : Offers ρ) (replaceTime : ClockTime) (adds : List (Address × ρ)) : Offers ρ :=
  let r := adds.foldl (offerAdd replaceTime) ([], s.nextIdent)
  { accumSet := r.1
    calls := s.calls ++ r.1.map fun x => (x.addr, x.ident)
    nextIdent := r.2 }

def step (s : Offers ρ) : Act ρ → Option (Offers ρ)
  | .sendOffer replaceTime adds => some (s.sendOffer replaceTime adds)
  | .resReplaceOffer k => s.calls[k]?.map fun c =>
    { s with accumSet := eraseFound s.accumSet c.1, calls := s.calls.eraseIdx k }
  | .streamAccepted iaddr acked =>
    some { s with accumSet := if acked then eraseFound s.accumSet iaddr else s.accumSet }

/-- The step ends the stream of this accumulator: the receiver it was sent to on this connection
has read it, or the call made for it has completed. -/
def OwnReason (s : Offers ρ) (x : Accumulator ρ) (a : Act ρ) : Prop :=
  (∃ iaddr it, a = .streamAccepted iaddr true ∧ accumSetFind s.accumSet iaddr = some it ∧
    s.accumSet[it]? = some x) ∨
  ∃ k c, a = .resReplaceOffer k ∧ s.calls[k]? = some c ∧ c.2 = x.ident

/-- In these steps an accumulator leaves the set only for its own reasons. -/
def OwnReasons : Offers ρ → List (Act ρ) → Prop
  | _, [] => True
  | s, a :: as => ∀ t ∈ step s a,
    (∀ x ∈ s.accumSet, (∀ y ∈ t.accumSet, y.ident ≠ x.ident) → s.OwnReason x a) ∧ OwnReasons t as

end Offers

end Kumofs
