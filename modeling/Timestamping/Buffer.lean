import Timestamping.Attestation

/-!
A buffer that is written from left to right. A write either adds its whole output or, when its value
has no record, adds nothing.
-/

namespace Timestamping

structure Buffer where
  bytes : Bytes := []
deriving DecidableEq, Repr

namespace Buffer

inductive Item
  | bytes (content : Bytes)
  | varint (number : UInt64)
  | varBytes (content : Bytes)
  | record (attestation : Attestation)
deriving DecidableEq, Repr

def Item.output : Item → Except EncodeError Bytes
  | .bytes content => .ok content
  | .varint number => .ok (Varint.encode number)
  | .varBytes content => .ok (VarBytes.encode content)
  | .record attestation => attestation.encode

def write (buffer : Buffer) (item : Item) : Except EncodeError Unit × Buffer :=
  match item.output with
  | .ok output => (.ok (), ⟨buffer.bytes ++ output⟩)
  | .error error => (.error error, buffer)

/-- Writes one item after another and goes on after a failure. -/
def writeAll (buffer : Buffer) (items : List Item) : Buffer :=
  items.foldl (fun buffer item => (buffer.write item).2) buffer

end Buffer

end Timestamping
