import Timestamping.Bytes

/-!
Written forms of single bytes that stay inside printable ASCII, for messages and displays.
-/

namespace Timestamping.Escape

def hexPair (byte : UInt8) : Text :=
  [Nat.digitChar (byte.toNat / 16), Nat.digitChar (byte.toNat % 16)]

/-- A byte inside a quoted byte string. Both quotes and the backslash are escaped, so the closing
quote of the string is the first bare one. -/
def byte (byte : UInt8) : Text :=
  if byte = 0x09 then ['\\', 't']
  else if byte = 0x0A then ['\\', 'n']
  else if byte = 0x0D then ['\\', 'r']
  else if byte = 0x22 then ['\\', '"']
  else if byte = 0x27 then ['\\', '\'']
  else if byte = 0x5C then ['\\', '\\']
  else if 0x20 ≤ byte && byte ≤ 0x7E then [Char.ofUInt8 byte]
  else '\\' :: 'x' :: hexPair byte

def bytes (bytes : Bytes) : Text :=
  bytes.flatMap byte

/-- Whether a byte, read as one of the first 256 characters, is a control character. -/
def isControl (byte : UInt8) : Bool :=
  byte < 0x20 || (0x7F ≤ byte && byte < 0xA0)

/-- A byte shown as the character of the same number, in single quotes. Inside them a double quote
needs no escape, and a control character is written by its number without leading zeros. -/
def quotedByte (byte : UInt8) : Text :=
  let body : Text :=
    if byte = 0x00 then ['\\', '0']
    else if byte = 0x09 then ['\\', 't']
    else if byte = 0x0A then ['\\', 'n']
    else if byte = 0x0D then ['\\', 'r']
    else if byte = 0x27 then ['\\', '\'']
    else if byte = 0x5C then ['\\', '\\']
    else if isControl byte then "\\u\x7b".toList ++ Nat.toDigits 16 byte.toNat ++ ['\x7d']
    else [Char.ofUInt8 byte]
  '\'' :: body ++ ['\'']

end Timestamping.Escape
