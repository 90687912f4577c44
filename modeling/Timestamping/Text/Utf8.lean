import Timestamping.Bytes

/-!
The character structure of a byte string. `segments` cuts any byte string into characters and into
the pieces that are no character; validity, the first fault and the readable text are all read off
that one list, so they cannot disagree about where a piece ends.
-/

namespace Timestamping.Utf8

def encode (text : Text) : Bytes :=
  text.flatMap String.utf8EncodeChar

structure ByteRange where
  low : UInt8
  high : UInt8

def ByteRange.contains (range : ByteRange) (byte : UInt8) : Bool :=
  range.low ≤ byte && byte ≤ range.high

def continuation : ByteRange := ⟨0x80, 0xBF⟩

/-- What the first byte of a character says: its own share of the scalar value, and where each
following byte must lie. -/
structure Lead where
  bits : Nat
  following : List ByteRange

/-- The byte after `E0` and `F0` starts late, so that no longer form of a smaller value is let in;
after `ED` it stops before the surrogates, and after `F4` behind U+10FFFF. -/
def lead? (byte : UInt8) : Option Lead :=
  if byte < 0x80 then some ⟨byte.toNat, []⟩
  else if byte < 0xC2 then none
  else if byte < 0xE0 then some ⟨byte.toNat - 0xC0, [continuation]⟩
  else if byte < 0xF0 then
    let second : ByteRange :=
      if byte = 0xE0 then ⟨0xA0, 0xBF⟩ else if byte = 0xED then ⟨0x80, 0x9F⟩ else continuation
    some ⟨byte.toNat - 0xE0, [second, continuation]⟩
  else if byte < 0xF5 then
    let second : ByteRange :=
      if byte = 0xF0 then ⟨0x90, 0xBF⟩ else if byte = 0xF4 then ⟨0x80, 0x8F⟩ else continuation
    some ⟨byte.toNat - 0xF0, [second, continuation, continuation]⟩
  else none

inductive Segment
  | scalar (character : Char)
  /-- Bytes that begin a character, or fail to, and that the next byte does not continue. -/
  | malformed (bytes : Bytes)
  /-- The beginning of a character that the end of the bytes cuts off. -/
  | incomplete (bytes : Bytes)

/-- Takes one byte from each range in turn and adds its six bits to `value`. `taken` holds the
bytes of the piece so far. A byte out of range is left in place: it begins the next piece. -/
def complete (value : Nat) (taken : Bytes) : List ByteRange → Bytes → Segment × Bytes
  | [], rest => (.scalar (Char.ofNat value), rest)
  | _ :: _, [] => (.incomplete taken, [])
  | range :: following, byte :: rest =>
      if range.contains byte then
        complete (64 * value + byte.toNat % 64) (taken ++ [byte]) following rest
      else (.malformed taken, byte :: rest)

/-- The piece that starts with `byte`, and the bytes behind it. -/
def segment (byte : UInt8) (rest : Bytes) : Segment × Bytes :=
  match lead? byte with
  | some lead => complete lead.bits [byte] lead.following rest
  | none => (.malformed [byte], rest)

private theorem complete_length_le (value : Nat) (taken : Bytes) (following : List ByteRange)
    (rest : Bytes) : (complete value taken following rest).2.length ≤ rest.length := by
  fun_induction complete value taken following rest with
  | case1 => exact Nat.le_refl _
  | case2 => exact Nat.le_refl _
  | case3 value taken range following byte rest _ ih => exact Nat.le_succ_of_le ih
  | case4 => exact Nat.le_refl _

theorem segment_length_le (byte : UInt8) (rest : Bytes) :
    (segment byte rest).2.length ≤ rest.length := by
  rw [segment]
  split
  · exact complete_length_le _ _ _ _
  · exact Nat.le_refl _

def segments : Bytes → List Segment
  | [] => []
  | byte :: rest => (segment byte rest).1 :: segments (segment byte rest).2
termination_by bytes => bytes.length
decreasing_by exact Nat.lt_succ_of_le (segment_length_le byte rest)

/-- Why a byte string is not UTF-8. The index counts the bytes before the faulty piece. -/
inductive Fault
  | malformed (index length : Nat)
  | incomplete (index : Nat)
deriving DecidableEq, Repr

def Fault.message : Fault → String
  | .malformed index length =>
      s!"invalid utf-8 sequence of {length} bytes from index {index}"
  | .incomplete index => s!"incomplete utf-8 byte sequence from index {index}"

/-- The first piece that is no character, `index` bytes having come before the list. -/
def firstFault? (index : Nat) : List Segment → Option Fault
  | [] => none
  | .scalar character :: rest => firstFault? (index + character.utf8Size) rest
  | .malformed bytes :: _ => some (.malformed index bytes.length)
  | .incomplete _ :: _ => some (.incomplete index)

def fault? (bytes : Bytes) : Option Fault :=
  firstFault? 0 (segments bytes)

def isValid (bytes : Bytes) : Bool :=
  (fault? bytes).isNone

/-- U+FFFD stands for each piece that is no character. -/
def Segment.readable : Segment → Char
  | .scalar character => character
  | .malformed _ => '\uFFFD'
  | .incomplete _ => '\uFFFD'

def readable (bytes : Bytes) : Text :=
  (segments bytes).map Segment.readable

end Timestamping.Utf8
