import Timestamping.Config
import Timestamping.Json.Value

/-!
JSON forms of tags, attestations and configurations. Each is written in one way; an attestation and
a configuration are also read from other forms of the same fields.
-/

namespace Timestamping

namespace Tag

def toJson (tag : Tag) : Json :=
  .bytes tag.bytes

def ofJson? (value : Json) : Option Tag := do
  let bytes ← value.bytes?
  (ofBytes bytes).toOption

end Tag

inductive Form
  | pending
  | bitcoin
  | unknown
deriving DecidableEq, Repr

namespace Form

def all : List Form := [.pending, .bitcoin, .unknown]

def name : Form → String
  | .pending => "pending"
  | .bitcoin => "bitcoin"
  | .unknown => "unknown"

def fieldNames : Form → List String
  | .pending => ["uri"]
  | .bitcoin => ["height"]
  | .unknown => ["tag", "payload"]

def ofJson? (value : Json) : Option Form :=
  all.find? fun form => value.isText form.name

/-- A payload may also be given as a text, which stands for its UTF-8 form. -/
def payload? (value : Json) : Option Bytes :=
  value.bytes? <|> value.text?.map Utf8.encode

def build? : Form → List Json → Option Attestation
  | .pending, [uri] => .pending <$> uri.bytes?
  | .bitcoin, [height] => do
      let number ← height.natural?
      if number < UInt64.size then some (.bitcoin (UInt64.ofNat number)) else none
  | .unknown, [tag, payload] => do
      let tag ← Tag.ofJson? tag
      let payload ← payload? payload
      some (.unknown tag payload)
  | _, _ => none

end Form

namespace Attestation

def form : Attestation → Form
  | .pending _ => .pending
  | .bitcoin _ => .bitcoin
  | .unknown _ _ => .unknown

def fieldValues : Attestation → List Json
  | .pending uri => [.bytes uri]
  | .bitcoin height => [.natural height.toNat]
  | .unknown tag payload => [tag.toJson, .bytes payload]

def toJson (attestation : Attestation) : Json :=
  let form := attestation.form
  let names := "type" :: form.fieldNames
  let values := .text form.name :: attestation.fieldValues
  .object (names.zip values |>.map fun member => (Utf16.encode member.1.toList, member.2))

/-- How deep a value may nest that an attestation is read from. -/
def nestingLimit : Nat := 127

/-- From an object whose members come in any order, or from an array of the form's name and the
fields. In an object the form and its fields stand once each, and all other members are passed over;
but a value that is not plain somewhere is refused whole. -/
def ofJson? (value : Json) : Option Attestation :=
  if value.isPlain nestingLimit then
    match value with
    | .object members => do
        let form ← Json.valueOf? "type" members >>= Form.ofJson?
        let values ← form.fieldNames.mapM fun name => Json.valueOf? name members
        form.build? values
    | .array (name :: values) => do
        let form ← Form.ofJson? name
        form.build? values
    | _ => none
  else none

end Attestation

namespace UriPolicy

/-- A policy is its name, or an object with that one key and null behind it. -/
def ofJson? (value : Json) : Option UriPolicy :=
  match value with
  | .object [(key, .scalar .null)] =>
      all.find? fun policy => Json.isText (.scalar (.string key)) policy.name
  | _ => all.find? fun policy => value.isText policy.name

end UriPolicy

namespace Config

def toJson (config : Config) : Json :=
  .object [(Utf16.encode "uri_policy".toList, .text config.uriPolicy.name)]

/-- From an object, where the policy may be left out and other members are passed over unread, or
from an array that holds the policy or nothing. -/
def ofJson? : Json → Option Config
  | .object members =>
      if members.all fun member => Utf16.isText member.1 then
        match Json.valuesOf "uri_policy" members with
        | [] => some {}
        | [policy] => Config.mk <$> UriPolicy.ofJson? policy
        | _ => none
      else none
  | .array [] => some {}
  | .array [policy] => Config.mk <$> UriPolicy.ofJson? policy
  | _ => none

end Config

end Timestamping
