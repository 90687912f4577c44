import Timestamping.Config
import Timestamping.Wire.Cursor

/-!
The kinds of record whose payload is understood, and how it is read. The fields come first, then
what the configuration asks of them, and last the end of the payload; the first of these that fails
names the error.
-/

namespace Timestamping

inductive Kind
  | pending
  | bitcoin
deriving DecidableEq, Repr

namespace Kind

def all : List Kind := [.pending, .bitcoin]

def name : Kind → String
  | .pending => "pending"
  | .bitcoin => "bitcoin"

def tag : Kind → Tag
  | .pending => .pending
  | .bitcoin => .bitcoin

def owns (kind : Kind) (tag : Tag) : Bool :=
  kind.tag = tag

def fields : Kind → Reader Attestation
  | .pending => .pending <$> (VarBytes.read 0 Attestation.maxUri).mapError .ofUri
  | .bitcoin => .bitcoin <$> Varint.read

def body (kind : Kind) (config : Config) : Reader Attestation := do
  let attestation ← kind.fields
  let _ ← config.check attestation
  pure attestation

/-- A payload must be used up. -/
def decode (kind : Kind) (config : Config) (payload : Bytes) : Except DecodeError Attestation :=
  (kind.body config).readAll payload

/-- Reads a payload at a place in a longer byte string, whose end does not matter. Fields that were
read and are then refused stay behind the cursor. -/
def decodeAt (kind : Kind) (config : Config) (cursor : Cursor) :
    Except DecodeError Attestation × Cursor :=
  let (fields, advanced) := cursor.run kind.fields
  (fields.bind fun attestation => (config.check attestation).map fun _ => attestation, advanced)

end Kind

end Timestamping
