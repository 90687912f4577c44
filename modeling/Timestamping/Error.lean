import Timestamping.Text.Hex

/-!
What can go wrong with a record, on the way in and on the way out. Each error is its cause with the
numbers that a report needs; `message` alone holds the wording.
-/

namespace Timestamping

/-- Why bytes that are all there are no variable-length integer. -/
inductive VarintFault
  | overflow
  | tooLong
deriving DecidableEq, Repr

def VarintFault.message : VarintFault → String
  | .overflow => "value overflows u64"
  | .tooLong => "encoding longer than 10 bytes"

inductive TagFault
  | hex (fault : Hex.Fault)
  | wrongLength (expected actual : Nat)
deriving DecidableEq, Repr

def TagFault.message : TagFault → String
  | .hex fault => fault.message
  | .wrongLength expected actual => s!"expected {expected} bytes, got {actual}"

/-- Why a read fails. Lengths that the input declares are kept as declared; `remaining` counts the
bytes that were left where the failing read began to need them. -/
inductive DecodeError
  | truncatedInput (needed remaining : Nat)
  | lengthOutOfBounds (length min max : Nat)
  | payloadTooLarge (length max : Nat)
  | uriTooLarge (length max : Nat)
  | malformedVarint (fault : VarintFault)
  | trailingPayloadBytes (remaining : Nat)
  | invalidUri (fault : Utf8.Fault)
  | invalidTag (fault : TagFault)
deriving DecidableEq, Repr

namespace DecodeError

def message : DecodeError → String
  | .truncatedInput needed remaining =>
      s!"truncated input: needed {needed} bytes, {remaining} remaining"
  | .lengthOutOfBounds length min max =>
      s!"declared length {length} outside bounds [{min}, {max}]"
  | .payloadTooLarge length max =>
      s!"attestation payload too large: {length} bytes (max {max})"
  | .uriTooLarge length max =>
      s!"pending attestation uri too large: {length} bytes (max {max})"
  | .malformedVarint fault => s!"malformed varint: {fault.message}"
  | .trailingPayloadBytes remaining =>
      s!"expected end of payload, {remaining} bytes left over"
  | .invalidUri fault => s!"pending attestation uri is not valid utf-8: {fault.message}"
  | .invalidTag fault => s!"invalid attestation tag: {fault.message}"

/-- A length out of bounds, said of a record's payload. -/
def ofPayload : DecodeError → DecodeError
  | .lengthOutOfBounds length _ max => .payloadTooLarge length max
  | error => error

def ofUri : DecodeError → DecodeError
  | .lengthOutOfBounds length _ max => .uriTooLarge length max
  | error => error

end DecodeError

inductive EncodeError
  | payloadTooLarge (length max : Nat)
  | uriTooLarge (length max : Nat)
deriving DecidableEq, Repr

def EncodeError.message : EncodeError → String
  | .payloadTooLarge length max =>
      s!"attestation payload too large: {length} bytes (max {max})"
  | .uriTooLarge length max =>
      s!"pending attestation uri too large: {length} bytes (max {max})"

end Timestamping
