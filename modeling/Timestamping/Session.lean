import Timestamping.Codec

/-!
A reading session: a cursor that requests move one after another, and a stack of cursors to go back
to. A request that fails is answered by its error and the session goes on.
-/

namespace Timestamping

structure Session where
  cursor : Cursor
  saved : List Cursor := []
deriving DecidableEq, Repr

namespace Session

inductive Request
  | bytes (count : Nat)
  | varint
  | varBytes (min max : Nat)
  | expectEnd
  | record (registry : Registry) (config : Config)
  | next (codec : Codec)
  | body (kind : Kind) (config : Config)
  | save
  /-- Goes on inside the byte string that is read here, and keeps the place behind it. -/
  | enter (min max : Nat)
  | resume
deriving DecidableEq, Repr

inductive Reply
  | bytes (content : Bytes)
  | number (value : UInt64)
  | attestation (value : Attestation)
  | done
  | nothingSaved
deriving DecidableEq, Repr

inductive Failure
  | read (error : DecodeError)
  | decode (error : Codec.Error)
deriving DecidableEq, Repr

def ofBytes (bytes : Bytes) : Session := ⟨.ofBytes bytes, []⟩

/-- Takes over where a read has left the cursor, and puts its result into the words of a session. -/
def answer {ε α : Type} (session : Session) (failure : ε → Failure) (reply : α → Reply)
    (outcome : Except ε α × Cursor) : Except Failure Reply × Session :=
  ((outcome.1.map reply).mapError failure, { session with cursor := outcome.2 })

def step (session : Session) : Request → Except Failure Reply × Session
  | .bytes count =>
      session.answer .read .bytes (session.cursor.run (Reader.bytes count))
  | .varint => session.answer .read .number (session.cursor.run Varint.read)
  | .varBytes min max =>
      session.answer .read .bytes (session.cursor.run (VarBytes.read min max))
  | .expectEnd => session.answer .read (fun _ => .done) (session.cursor.run Reader.expectEnd)
  | .record registry config =>
      session.answer .read .attestation (session.cursor.run (registry.read config))
  | .next codec => session.answer .decode .attestation (codec.next session.cursor)
  | .body kind config =>
      session.answer .read .attestation (kind.decodeAt config session.cursor)
  | .save => (.ok .done, { session with saved := session.cursor :: session.saved })
  | .enter min max =>
      match session.cursor.run (VarBytes.read min max) with
      | (.ok inner, advanced) => (.ok (.bytes inner), ⟨.ofBytes inner, advanced :: session.saved⟩)
      | (.error error, _) => (.error (.read error), session)
  | .resume =>
      match session.saved with
      | [] => (.ok .nothingSaved, session)
      | cursor :: saved => (.ok .done, ⟨cursor, saved⟩)

def run (session : Session) : List Request → List (Except Failure Reply × Session)
  | [] => []
  | request :: requests =>
      let outcome := session.step request
      outcome :: outcome.2.run requests

end Session

end Timestamping
