import Timestamping.Registry

/-!
Golden records: records in hexadecimal, each with what reading it must give.
-/

namespace Timestamping.Golden

inductive Outcome
  | pending (uri : String)
  | bitcoin (height : UInt64)
  /-- The tag is in hexadecimal. -/
  | unknown (tag : String) (payload : Bytes)
  | error (error : DecodeError)
deriving DecidableEq, Repr

def Outcome.attestation? : Outcome → Option Attestation
  | .pending uri => some (.ofUri uri.toList)
  | .bitcoin height => some (.bitcoin height)
  | .unknown tag payload => (Tag.ofHex tag.toList).toOption.map (.unknown · payload)
  | .error _ => none

structure Entry where
  name : String
  recordHex : String
  expected : Outcome
deriving DecidableEq, Repr

namespace Entry

/-- The bytes of the record, none at all when they are not hexadecimal. -/
def record (entry : Entry) : Bytes :=
  ((Hex.decode entry.recordHex.toList).toOption).getD []

def holds (entry : Entry) : Bool :=
  match Registry.standard.read {} entry.record, entry.expected with
  | .error error, .error expected => error = expected
  | .ok (attestation, _), expected => expected.attestation? = some attestation
  | .error _, _ => false

end Entry

def entries : List Entry :=
  [{ name := "bitcoin height 1000"
     recordHex := "0588960d73d7190102e807"
     expected := .bitcoin 1000 },
   { name := "bitcoin height 0"
     recordHex := "0588960d73d719010100"
     expected := .bitcoin 0 },
   { name := "bitcoin height 358391"
     recordHex := "0588960d73d7190103f7ef15"
     expected := .bitcoin 358391 },
   { name := "bitcoin height u64::MAX"
     recordHex := "0588960d73d719010affffffffffffffffff01"
     expected := .bitcoin 18446744073709551615 },
   { name := "pending alice calendar"
     recordHex :=
      "83dfe30d2ef90c8e2e2d68747470733a2f2f616c6963652e6274632e63616c656e6461722e6f70656e74696d657374616d70732e6f7267"
     expected := .pending "https://alice.btc.calendar.opentimestamps.org" },
   { name := "pending bob calendar"
     recordHex :=
      "83dfe30d2ef90c8e2c2b68747470733a2f2f626f622e6274632e63616c656e6461722e6f70656e74696d657374616d70732e6f7267"
     expected := .pending "https://bob.btc.calendar.opentimestamps.org" },
   { name := "pending empty uri"
     recordHex := "83dfe30d2ef90c8e0100"
     expected := .pending "" },
   { name := "unknown tag with abc payload"
     recordHex := "ffffffffffffffff03616263"
     expected := .unknown "ffffffffffffffff" [0x61, 0x62, 0x63] },
   { name := "unknown tag with empty payload"
     recordHex := "010203040506070800"
     expected := .unknown "0102030405060708" [] },
   { name := "bitcoin payload with trailing byte"
     recordHex := "0588960d73d7190103e80700"
     expected := .error (.trailingPayloadBytes 1) },
   { name := "payload length over limit"
     recordHex := "0588960d73d719018140"
     expected := .error (.payloadTooLarge (Envelope.maxPayload + 1) Envelope.maxPayload) },
   { name := "truncated tag"
     recordHex := "0588960d"
     expected := .error (.truncatedInput Tag.size 4) },
   { name := "truncated payload"
     recordHex := "0588960d73d7190102e8"
     expected := .error (.truncatedInput 2 1) },
   { name := "bitcoin height overflows u64"
     recordHex := "0588960d73d719010affffffffffffffffff02"
     expected := .error (.malformedVarint .overflow) }]

end Timestamping.Golden
