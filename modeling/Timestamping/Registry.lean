import Timestamping.Kind

/-!
Registries: the kinds that a decoder knows. The tag of an envelope selects the kind that reads its
payload; a tag that no kind owns is no error, and its payload is kept unread.
-/

namespace Timestamping

/-- Kinds in the order in which they are asked. -/
structure Registry where
  kinds : List Kind
deriving DecidableEq, Repr

namespace Registry

def empty : Registry := ⟨[]⟩

def standard : Registry := ⟨[.pending, .bitcoin]⟩

/-- The new kind is asked last. -/
def register (registry : Registry) (kind : Kind) : Registry :=
  ⟨registry.kinds ++ [kind]⟩

def lookup (registry : Registry) (tag : Tag) : Option Kind :=
  registry.kinds.find? (·.owns tag)

def interpret (registry : Registry) (config : Config) (envelope : Envelope) :
    Except DecodeError Attestation :=
  match registry.lookup envelope.tag with
  | some kind => kind.decode config envelope.payload
  | none => .ok (.unknown envelope.tag envelope.payload)

/-- Reads a record: the whole envelope, whatever its tag, and then what is in it. -/
def read (registry : Registry) (config : Config) : Reader Attestation := do
  let envelope ← Envelope.read
  registry.interpret config envelope

theorem length_lt_of_read {registry : Registry} {config : Config} {input rest : Bytes}
    {attestation : Attestation} (h : registry.read config input = .ok (attestation, rest)) :
    rest.length < input.length := by
  obtain ⟨envelope, middle, hEnvelope, hInterpret⟩ := Reader.bind_eq_ok_iff.mp h
  rw [← (Reader.lift_eq_ok_iff.mp hInterpret).2]
  exact Envelope.length_lt_of_read hEnvelope

theorem read_takesFront (registry : Registry) (config : Config) :
    (registry.read config).TakesFront :=
  Envelope.read_takesFront.bind fun _ => Reader.TakesFront.lift _

end Registry

end Timestamping
