import Timestamping.Bytes

/-!
Text in 16-bit units. A list of units may hold a surrogate without its partner, which no text has;
`decode?` refuses exactly those lists.
-/

namespace Timestamping.Utf16

/-- A character above U+FFFF takes two units, the upper ten bits of its distance from U+10000 in
the first. -/
def encodeChar (character : Char) : List UInt16 :=
  let value := character.toNat
  if value < 0x10000 then [UInt16.ofNat value]
  else [UInt16.ofNat (0xD800 + (value - 0x10000) / 0x400),
    UInt16.ofNat (0xDC00 + (value - 0x10000) % 0x400)]

def encode (text : Text) : List UInt16 :=
  text.flatMap encodeChar

def isHigh (unit : UInt16) : Bool :=
  0xD800 ≤ unit && unit < 0xDC00

def isLow (unit : UInt16) : Bool :=
  0xDC00 ≤ unit && unit < 0xE000

def join (high low : UInt16) : Char :=
  Char.ofNat (0x10000 + (high.toNat - 0xD800) * 0x400 + (low.toNat - 0xDC00))

def decode? : List UInt16 → Option Text
  | [] => some []
  | [unit] => if isHigh unit || isLow unit then none else some [Char.ofNat unit.toNat]
  | unit :: next :: rest =>
      if isHigh unit && isLow next then (decode? rest).map (join unit next :: ·)
      else if isHigh unit || isLow unit then none
      else (decode? (next :: rest)).map (Char.ofNat unit.toNat :: ·)

def isText (units : List UInt16) : Bool :=
  (decode? units).isSome

end Timestamping.Utf16
