import Timestamping.Json.Number
import Timestamping.Json.Quoted

/-!
Tokens of JSON. White space stands between tokens and is gone once they are read.
-/

namespace Timestamping

/-- A value without parts. A string is kept in 16-bit units, since its escapes may leave a surrogate
without its partner. -/
inductive Scalar
  | null
  | bool (value : Bool)
  | number (value : Number)
  | string (units : List UInt16)
deriving DecidableEq, Repr

namespace Scalar

def text (characters : String) : Scalar :=
  .string (Utf16.encode characters.toList)

/-- Whether the value has a counterpart among texts, truth values and finite numbers. -/
def isPlain : Scalar → Bool
  | .null => true
  | .bool _ => true
  | .number value => value.isFinite
  | .string units => Utf16.isText units

def render : Scalar → Text
  | .null => "null".toList
  | .bool true => "true".toList
  | .bool false => "false".toList
  | .number value => value.render
  | .string units => Quoted.render units

end Scalar

inductive Token
  | scalar (value : Scalar)
  | openArray
  | closeArray
  | openObject
  | closeObject
  | colon
  | comma
deriving DecidableEq, Repr

namespace Token

def render : Token → Text
  | .scalar value => value.render
  | .openArray => ['[']
  | .closeArray => [']']
  | .openObject => ['{']
  | .closeObject => ['}']
  | .colon => [':']
  | .comma => [',']

def isSpace (character : Char) : Bool :=
  character = ' ' || character = '\t' || character = '\n' || character = '\r'

def word? (letters : String) (value : Scalar) (text : Text) : Option (Token × Text) :=
  if letters.toList.isPrefixOf text then some (.scalar value, text.drop letters.toList.length)
  else none

def next? (first : Char) (rest : Text) : Option (Token × Text) :=
  match first with
  | '[' => some (.openArray, rest)
  | ']' => some (.closeArray, rest)
  | '{' => some (.openObject, rest)
  | '}' => some (.closeObject, rest)
  | ':' => some (.colon, rest)
  | ',' => some (.comma, rest)
  | 'n' => word? "ull" .null rest
  | 't' => word? "rue" (.bool true) rest
  | 'f' => word? "alse" (.bool false) rest
  | '"' => (Quoted.body? rest).map fun result => (.scalar (.string result.1), result.2)
  | _ => (Number.scan? (first :: rest)).map fun result => (.scalar (.number result.1), result.2)

private theorem word?_length {letters : String} {value : Scalar} {text rest : Text} {token : Token}
    (h : word? letters value text = some (token, rest)) : rest.length ≤ text.length := by
  unfold word? at h
  split at h
  · cases h
    rw [List.length_drop]
    exact Nat.sub_le _ _
  · cases h

private theorem next?_length {first : Char} {text rest : Text} {token : Token}
    (h : next? first text = some (token, rest)) : rest.length ≤ text.length := by
  unfold next? at h
  split at h
  case h_7 => exact word?_length h
  case h_8 => exact word?_length h
  case h_9 => exact word?_length h
  case h_10 =>
    obtain ⟨⟨units, after⟩, hBody, hResult⟩ := Option.map_eq_some_iff.mp h
    cases hResult
    exact Nat.le_of_lt (Quoted.length_lt_of_body? hBody)
  case h_11 =>
    obtain ⟨⟨number, after⟩, hNumber, hResult⟩ := Option.map_eq_some_iff.mp h
    cases hResult
    exact Nat.le_of_lt_succ (Number.length_lt_of_scan? hNumber)
  all_goals
    cases h
    exact Nat.le_refl _

def scan? : Text → Option (List Token)
  | [] => some []
  | first :: rest =>
      if isSpace first then scan? rest
      else
        match _ : next? first rest with
        | some (token, after) => (scan? after).map (token :: ·)
        | none => none
termination_by text => text.length
decreasing_by
  · exact Nat.lt_succ_self _
  · exact Nat.lt_succ_of_le (next?_length ‹_›)

end Token

end Timestamping
