import Timestamping.Tag
import Timestamping.Wire.VarBytes

/-!
The outer layer of a record: a tag and a payload that nobody has looked into.
-/

namespace Timestamping

structure Envelope where
  tag : Tag
  payload : Bytes
deriving DecidableEq, Repr

namespace Envelope

/-- The most bytes that a payload may have in a record that is read. -/
def maxPayload : Nat := 8192

/-- No limit is applied here; a payload that is too long makes a record that `read` refuses. -/
def encode (envelope : Envelope) : Bytes :=
  envelope.tag.bytes ++ VarBytes.encode envelope.payload

def read : Reader Envelope := do
  let tag ← Tag.read
  Envelope.mk tag <$> (VarBytes.read 0 maxPayload).mapError .ofPayload

/-- A tag alone is eight bytes, so no envelope is read from nothing. -/
theorem length_lt_of_read {input rest : Bytes} {envelope : Envelope}
    (h : read input = .ok (envelope, rest)) : rest.length < input.length := by
  obtain ⟨tag, middle, hTag, hPayload⟩ := Reader.bind_eq_ok_iff.mp h
  have hRest := ((VarBytes.read_takesFront 0 maxPayload).mapError .ofPayload |>.map
    (Envelope.mk tag) hPayload).length_le
  have hBytes := tag.bytesLength
  rw [Tag.read_eq_ok_iff.mp hTag, List.length_append]
  omega

theorem read_takesFront : read.TakesFront := by
  apply Reader.TakesFront.bind
  · intro input tag rest h
    rw [Tag.read_eq_ok_iff.mp h]
    exact List.suffix_append tag.bytes rest
  · intro tag
    exact ((VarBytes.read_takesFront 0 maxPayload).mapError .ofPayload).map (Envelope.mk tag)

end Envelope

end Timestamping
