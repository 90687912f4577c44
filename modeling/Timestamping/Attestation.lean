import Timestamping.Envelope

/-!
Attestations: what a timestamp proof says about where its commitment can be found. Each has one
record, or none when a length limit stands against it.
-/

namespace Timestamping

inductive Attestation
  /-- A calendar has promised to include the commitment; ask it again at this URI. The URI is kept
  as the bytes it came in, which need not be text. -/
  | pending (uri : Bytes)
  /-- The commitment is in the block at this height. -/
  | bitcoin (height : UInt64)
  /-- Something else, kept whole so that it can be handed on. -/
  | unknown (tag : Tag) (payload : Bytes)
deriving DecidableEq, Repr

namespace Attestation

/-- The most bytes that a calendar's URI may have in a record. -/
def maxUri : Nat := 1000

def ofUri (uri : Text) : Attestation :=
  .pending (Utf8.encode uri)

def tag : Attestation → Tag
  | .pending _ => .pending
  | .bitcoin _ => .bitcoin
  | .unknown tag _ => tag

def isKnown : Attestation → Bool
  | .pending _ => true
  | .bitcoin _ => true
  | .unknown _ _ => false

def payload : Attestation → Except EncodeError Bytes
  | .pending uri =>
      if uri.length ≤ maxUri then .ok (VarBytes.encode uri)
      else .error (.uriTooLarge uri.length maxUri)
  | .bitcoin height => .ok (Varint.encode height)
  | .unknown _ payload => .ok payload

def envelope (attestation : Attestation) : Except EncodeError Envelope := do
  let payload ← attestation.payload
  if payload.length ≤ Envelope.maxPayload then pure ⟨attestation.tag, payload⟩
  else throw (.payloadTooLarge payload.length Envelope.maxPayload)

def encode (attestation : Attestation) : Except EncodeError Bytes :=
  Envelope.encode <$> attestation.envelope

end Attestation

end Timestamping
