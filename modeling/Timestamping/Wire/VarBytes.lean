import Timestamping.Wire.Varint

/-!
Byte strings that begin with their own length, a variable-length integer.
-/

namespace Timestamping.VarBytes

/-- The length is held against both bounds before any byte behind it is looked at. When bytes are
missing, those that remain are counted from behind the length. -/
def read (min max : Nat) : Reader Bytes := do
  let length ← Varint.read
  if min ≤ length.toNat ∧ length.toNat ≤ max then Reader.bytes length.toNat
  else throw (.lengthOutOfBounds length.toNat min max)

def encode (bytes : Bytes) : Bytes :=
  Varint.encode (UInt64.ofNat bytes.length) ++ bytes

theorem read_takesFront (min max : Nat) : (read min max).TakesFront := by
  apply Varint.read_takesFront.bind
  intro length
  split
  · exact Reader.bytes_takesFront length.toNat
  · exact Reader.TakesFront.throw _

end Timestamping.VarBytes
