import Timestamping.Text.Escape
import Timestamping.Text.Utf8

/-!
Bytes in hexadecimal. Writing is lower case; reading takes either case and looks at the UTF-8 bytes
of the text, whose number must be even before any of them is looked at.
-/

namespace Timestamping.Hex

def encode (bytes : Bytes) : Text :=
  bytes.flatMap Escape.hexPair

def digitValue? (digit : Char) : Option Nat :=
  if '0' ≤ digit && digit ≤ '9' then some (digit.toNat - '0'.toNat)
  else if 'a' ≤ digit && digit ≤ 'f' then some (digit.toNat - 'a'.toNat + 10)
  else if 'A' ≤ digit && digit ≤ 'F' then some (digit.toNat - 'A'.toNat + 10)
  else none

/-- Why a text is not hexadecimal. The index counts bytes of its UTF-8 form. -/
inductive Fault
  | oddLength
  | badDigit (byte : UInt8) (index : Nat)
deriving DecidableEq, Repr

def Fault.message : Fault → String
  | .oddLength => "Odd number of digits"
  | .badDigit byte index =>
      let character := String.ofList (Escape.quotedByte byte)
      s!"Invalid character {character} at position {index}"

/-- The value of the digit that stands `index` bytes from the start. -/
def digitAt (index : Nat) (byte : UInt8) : Except Fault Nat :=
  match digitValue? (Char.ofUInt8 byte) with
  | some value => .ok value
  | none => .error (.badDigit byte index)

/-- Joins digits in pairs, `index` bytes having come before. A last digit without a partner is
left out; `decode` lets none come to that. -/
def decodePairs (index : Nat) : Bytes → Except Fault Bytes
  | high :: low :: rest => do
      let upper ← digitAt index high
      let lower ← digitAt (index + 1) low
      let bytes ← decodePairs (index + 2) rest
      pure (UInt8.ofNat (16 * upper + lower) :: bytes)
  | _ => pure []

def decode (text : Text) : Except Fault Bytes :=
  let digits := Utf8.encode text
  if digits.length % 2 = 1 then .error .oddLength else decodePairs 0 digits

end Timestamping.Hex
