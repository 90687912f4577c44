import Timestamping.Attestation

/-!
What a decoder is asked to insist on beyond the form of a record.
-/

namespace Timestamping

/-- What happens to a calendar's URI that is not UTF-8. -/
inductive UriPolicy
  | strict
  | preserveRaw
deriving DecidableEq, Repr

def UriPolicy.name : UriPolicy → String
  | .strict => "strict"
  | .preserveRaw => "preserve_raw"

def UriPolicy.all : List UriPolicy := [.strict, .preserveRaw]

structure Config where
  uriPolicy : UriPolicy := .strict
deriving DecidableEq, Repr

def Config.check (config : Config) : Attestation → Except DecodeError Unit
  | .pending uri =>
      match config.uriPolicy, Utf8.fault? uri with
      | .strict, some fault => .error (.invalidUri fault)
      | _, _ => .ok ()
  | _ => .ok ()

end Timestamping
