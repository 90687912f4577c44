import Timestamping.Json.Token

/-!
Values of JSON, as tokens and back. A token moves a state that knows the arrays and objects still
open and what may come next; the members of an object keep their order and may repeat a key.
-/

namespace Timestamping

inductive Json
  | scalar (value : Scalar)
  | array (items : List Json)
  | object (members : List (List UInt16 × Json))
deriving Repr

namespace Json

abbrev Key := List UInt16

abbrev Member := Key × Json

/-- An array or object that is still open, with what stands in it so far, the newest first. -/
inductive Frame
  | items (before : List Json)
  /-- The value of `key` is awaited. -/
  | member (before : List Member) (key : Key)

/-- What has been read, seen from the place that is reached. The innermost frame comes first. -/
inductive State
  | value (frames : List Frame)
  /-- An array has just been opened. -/
  | firstItem (frames : List Frame)
  /-- An object has just been opened. -/
  | firstKey (frames : List Frame)
  /-- A comma inside an object has just been read. -/
  | nextKey (before : List Member) (frames : List Frame)
  /-- The key of a member has just been read. -/
  | keyRead (before : List Member) (key : Key) (frames : List Frame)
  | complete (value : Json) (frames : List Frame)

def beginValue (frames : List Frame) : Token → Option State
  | .scalar value => some (.complete (.scalar value) frames)
  | .openArray => some (.firstItem frames)
  | .openObject => some (.firstKey frames)
  | _ => none

def afterValue (value : Json) : List Frame → Token → Option State
  | .items before :: frames, .comma => some (.value (.items (value :: before) :: frames))
  | .items before :: frames, .closeArray =>
      some (.complete (.array (value :: before).reverse) frames)
  | .member before key :: frames, .comma => some (.nextKey ((key, value) :: before) frames)
  | .member before key :: frames, .closeObject =>
      some (.complete (.object ((key, value) :: before).reverse) frames)
  | _, _ => none

def step : State → Token → Option State
  | .value frames, token => beginValue frames token
  | .firstItem frames, .closeArray => some (.complete (.array []) frames)
  | .firstItem frames, token => beginValue (.items [] :: frames) token
  | .firstKey frames, .closeObject => some (.complete (.object []) frames)
  | .firstKey frames, .scalar (.string key) => some (.keyRead [] key frames)
  | .nextKey before frames, .scalar (.string key) => some (.keyRead before key frames)
  | .keyRead before key frames, .colon => some (.value (.member before key :: frames))
  | .complete value frames, token => afterValue value frames token
  | _, _ => none

def ofTokens? (tokens : List Token) : Option Json :=
  match tokens.foldlM step (.value []) with
  | some (.complete value []) => some value
  | _ => none

def parse? (text : Text) : Option Json := do
  let tokens ← Token.scan? text
  ofTokens? tokens

mutual

def tokens : Json → List Token
  | .scalar value => [.scalar value]
  | .array items => .openArray :: itemTokens items ++ [.closeArray]
  | .object members => .openObject :: memberTokens members ++ [.closeObject]

def itemTokens : List Json → List Token
  | [] => []
  | [item] => item.tokens
  | item :: next :: rest => item.tokens ++ .comma :: itemTokens (next :: rest)

def memberTokens : List Member → List Token
  | [] => []
  | [(key, value)] => .scalar (.string key) :: .colon :: value.tokens
  | (key, value) :: next :: rest =>
      .scalar (.string key) :: .colon :: value.tokens ++ .comma :: memberTokens (next :: rest)

end

def render (value : Json) : Text :=
  value.tokens.flatMap Token.render

/-- Whether every scalar and every key is plain and no more than `limit` arrays and objects lie
around one another. -/
def isPlain : Nat → Json → Bool
  | _, .scalar value => value.isPlain
  | 0, _ => false
  | limit + 1, .array items => items.all (isPlain limit)
  | limit + 1, .object members =>
      members.all fun member => Utf16.isText member.1 && isPlain limit member.2

def text (characters : String) : Json :=
  .scalar (.text characters)

def natural (value : Nat) : Json :=
  .scalar (.number (.natural value))

def bytes (content : Bytes) : Json :=
  .array (content.map fun byte => natural byte.toNat)

def natural? : Json → Option Nat
  | .scalar (.number (.natural value)) => some value
  | _ => none

def byte? (value : Json) : Option UInt8 := do
  let number ← value.natural?
  if number < 256 then some (UInt8.ofNat number) else none

def bytes? : Json → Option Bytes
  | .array items => items.mapM byte?
  | _ => none

def text? : Json → Option Text
  | .scalar (.string units) => Utf16.decode? units
  | _ => none

def isText (value : Json) (characters : String) : Bool :=
  match value with
  | .scalar (.string units) => units = Utf16.encode characters.toList
  | _ => false

def valuesOf (name : String) (members : List Member) : List Json :=
  (members.filter fun member => member.1 = Utf16.encode name.toList).map Prod.snd

def valueOf? (name : String) (members : List Member) : Option Json :=
  match valuesOf name members with
  | [value] => some value
  | _ => none

end Json

end Timestamping
