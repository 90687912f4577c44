import Timestamping.Wire.Reader

/-!
Tags: the eight bytes that open a record and say what kind it is of. A tag cannot have another
length, so only the readers from bytes and from text have a length to check.
-/

namespace Timestamping

structure Tag where
  bytes : Bytes
  bytesLength : bytes.length = 8
deriving DecidableEq, Repr

namespace Tag

def size : Nat := 8

def pending : Tag := ⟨[0x83, 0xDF, 0xE3, 0x0D, 0x2E, 0xF9, 0x0C, 0x8E], rfl⟩

def bitcoin : Tag := ⟨[0x05, 0x88, 0x96, 0x0D, 0x73, 0xD7, 0x19, 0x01], rfl⟩

def read : Reader Tag :=
  (fun bytes => ⟨bytes.val, bytes.property⟩) <$> Reader.exactly size

theorem read_eq_ok_iff {input rest : Bytes} {tag : Tag} :
    read input = .ok (tag, rest) ↔ input = tag.bytes ++ rest := by
  rw [read, Reader.map_eq_ok_iff]
  constructor
  · rintro ⟨bytes, hRead, rfl⟩
    exact Reader.exactly_eq_ok_iff.mp hRead
  · intro h
    exact ⟨⟨tag.bytes, tag.bytesLength⟩, Reader.exactly_eq_ok_iff.mpr h, rfl⟩

def ofBytes (bytes : Bytes) : Except DecodeError Tag :=
  if length : bytes.length = size then .ok ⟨bytes, length⟩
  else .error (.invalidTag (.wrongLength size bytes.length))

def toHex (tag : Tag) : Text :=
  Hex.encode tag.bytes

/-- A text that is no hexadecimal at all is refused as that, whatever its length. -/
def ofHex (text : Text) : Except DecodeError Tag := do
  let bytes ← (Hex.decode text).mapError fun fault => .invalidTag (.hex fault)
  ofBytes bytes

def inspect (tag : Tag) : Text :=
  "AttestationTag(".toList ++ tag.toHex ++ [')']

/-- Byte by byte from the left, like words in a dictionary. -/
instance : Ord Tag := ⟨fun first second => compare first.bytes second.bytes⟩

end Tag

end Timestamping
