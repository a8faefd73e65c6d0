import Kumofs.Gate.Binary

/-!
# The Cloudy gate

`gate/cloudy.cc`: the binary protocol again, for values without flags and without a time at which
they expire. There is no queue, a response is written when the gateway answers.
-/

namespace Kumofs.Gate.Cloudy

open Binary (Header Status packHeader sendResponse sendResponseNodata Request)

/-- What is answered where there is no value. -/
def notFound (h : Header) (quiet : Bool) (status : Status) : List Bytes :=
  if quiet then [] else sendResponseNodata h status

/-- The vectors of `response_getx`, none where nothing is written. -/
def responseGetx (h : Header) (flagKey flagQuiet : Bool) (res : ResGet) : List Bytes :=
  if res.error then notFound h flagQuiet .invalidArguments
  else
    match res.val with
    | none => notFound h flagQuiet .keyNotFound
    | some val =>
      sendResponse h .noError res.key (if flagKey then UInt16.ofNat res.key.length else 0) val
        (UInt16.ofNat val.length) [0, 0, 0, 0] 4 0

/-- What a request asks of the gateway. `none` is an exception, which closes the connection, or a
request without a callback. -/
def handle : Request → Option Req
  | .getx _ key => some (.get key)
  | .set h key val flags expiration =>
    if h.cas ≠ 0 ∨ flags ≠ 0 ∨ expiration ≠ 0 then none else some (.set key val .set)
  | .delete _ key expiration => if expiration ≠ 0 then none else some (.delete key false)
  | .noop _ => none
  | .flush _ _ => none

end Kumofs.Gate.Cloudy
