import Timestamping.Registry
import Timestamping.Text.Blank

/-!
A codec turns records into attestations under one registry and one configuration, and attestations
into records. Main statement: every record that is read shortens the input, so a stream of records
ends.
-/

namespace Timestamping

structure Codec where
  registry : Registry := .standard
  config : Config := {}
deriving DecidableEq, Repr

namespace Codec

inductive Error
  | decode (error : DecodeError)
  | encode (error : EncodeError)
  | hex (fault : Hex.Fault)
  | trailingBytes (consumed remaining : Nat)
deriving DecidableEq, Repr

def Error.message : Error → String
  | .decode error => s!"decode error: {error.message}"
  | .encode error => s!"encode error: {error.message}"
  | .hex fault => s!"invalid hex: {fault.message}"
  | .trailingBytes consumed remaining =>
      s!"{remaining} bytes after attestation record of {consumed} bytes"

def next (codec : Codec) (cursor : Cursor) : Except Error Attestation × Cursor :=
  let (result, advanced) := cursor.run (codec.registry.read codec.config)
  (result.mapError .decode, advanced)

/-- The record at the front, and how many bytes it takes. -/
def first (codec : Codec) (input : Bytes) : Except Error (Attestation × Nat) :=
  let (result, cursor) := codec.next (.ofBytes input)
  result.map fun attestation => (attestation, cursor.position)

def decode (codec : Codec) (input : Bytes) : Except Error Attestation := do
  let (attestation, consumed) ← codec.first input
  if consumed = input.length then pure attestation
  else throw (.trailingBytes consumed (input.length - consumed))

def decodeHex (codec : Codec) (text : Text) : Except Error Attestation := do
  let input ← (Hex.decode (Blank.trim text)).mapError .hex
  codec.decode input

/-- Writing asks neither the registry nor the configuration. -/
def encode (attestation : Attestation) : Except Error Bytes :=
  attestation.encode.mapError .encode

def encodeHex (attestation : Attestation) : Except Error Text :=
  Hex.encode <$> encode attestation

private theorem remaining_next_lt {codec : Codec} {cursor advanced : Cursor}
    {attestation : Attestation} (h : codec.next cursor = (.ok attestation, advanced)) :
    advanced.remaining < cursor.remaining := by
  cases hRead : codec.registry.read codec.config cursor.rest with
  | error error =>
      have hResult : (codec.next cursor).1 = .error (.decode error) := by
        simp only [next, Cursor.run, hRead]
        rfl
      rw [h] at hResult
      cases hResult
  | ok result =>
      obtain ⟨value, rest⟩ := result
      have hAdvanced : (cursor.run (codec.registry.read codec.config)).2 = advanced :=
        congrArg Prod.snd h
      rw [← hAdvanced, Cursor.remaining_run (Registry.read_takesFront _ _) hRead,
        ← cursor.length_rest]
      exact Registry.length_lt_of_read hRead

/-- The records from a place on, each with the position behind it, up to the end of the bytes or to
the first failure, which is the last item. -/
def recordsFrom (codec : Codec) (cursor : Cursor) : List (Except Error Attestation × Nat) :=
  if cursor.isAtEnd then []
  else
    match _ : codec.next cursor with
    | (.ok attestation, advanced) =>
        (.ok attestation, advanced.position) :: codec.recordsFrom advanced
    | (.error error, unmoved) => [(.error error, unmoved.position)]
termination_by cursor.remaining
decreasing_by exact remaining_next_lt ‹_›

def records (codec : Codec) (input : Bytes) : List (Except Error Attestation × Nat) :=
  codec.recordsFrom (.ofBytes input)

end Codec

end Timestamping
