import Timestamping.Session

/-!
Reading as a machine does it. There is one place, moved by assignments; a read that fails leaves it
where it got to, unless it is put back by hand. Positions and lengths are words that count up to
some size, and a step that leaves the words or the bytes has no outcome at all, not even a failure.
-/

namespace Timestamping.Machine

/-- None where a step cannot be made; otherwise a result, and the place as it was left. -/
abbrev Action (α : Type) := ExceptT DecodeError (StateT Cursor Option) α

variable {α : Type}

/-! ### Steps -/

def stuck : Action α := fun _ => none

/-- Work on a copy of the place, which takes its position only when all has gone well. -/
def onCopy (action : Action α) : Action α := fun place =>
  match action place with
  | some (.error error, _) => some (.error error, place)
  | outcome => outcome

/-- Work on other bytes, from their beginning. The place is not touched. -/
def within (content : Bytes) (action : Action α) : Action α := fun place =>
  (action (.ofBytes content)).map fun outcome => (outcome.1, place)

def describing (describe : DecodeError → DecodeError) (action : Action α) : Action α :=
  tryCatch action fun error => throw (describe error)

def moveTo (position : Nat) : Action Unit :=
  modify fun place => { place with position := position }

def subtract (first second : Nat) : Action Nat :=
  if second ≤ first then pure (first - second) else stuck

/-- The bytes from `start` to `stop`, both of which must be places in the bytes. -/
def slice (start stop : Nat) : Action Bytes := fun place =>
  if start ≤ stop ∧ stop ≤ place.bytes.length then
    some (.ok ((place.bytes.take stop).drop start), place)
  else none

/-- A shift within the width of a number that loses none of its bits. -/
def shiftLeft (bits : UInt64) (shift : Nat) : Action UInt64 :=
  let shifted := bits <<< UInt64.ofNat shift
  if shift < 64 ∧ shifted >>> UInt64.ofNat shift = bits then pure shifted else stuck

def remaining : Action Nat := do
  let place ← get
  subtract place.bytes.length place.position

def expectEnd : Action Unit := do
  let left ← remaining
  if left = 0 then pure ()
  else
    let left ← remaining
    throw (.trailingPayloadBytes left)

/-! ### Reads

Words are the numbers below `size`. -/

variable (size : Nat)

def add (first second : Nat) : Action Nat :=
  if first + second < size then pure (first + second) else stuck

/-- A number of 64 bits as a word. -/
def narrow (number : UInt64) : Action Nat :=
  if number.toNat < size then pure number.toNat else stuck

def bytes (count : Nat) : Action Bytes := do
  let left ← remaining
  if left < count then throw (.truncatedInput count left)
  else
    let start := (← get).position
    let stop ← add size start count
    let content ← slice start stop
    moveTo stop
    pure content

/-- Bytes that are copied to where exactly `count` of them fit. -/
def exactly (count : Nat) : Action { bytes : Bytes // bytes.length = count } := do
  let content ← bytes size count
  if fits : content.length = count then pure ⟨content, fits⟩ else stuck

/-- Goes on with the groups at `index`. The place stays behind until the last of them is read. -/
def groupsFrom (value : UInt64) (shift index : Nat) : Action UInt64 := do
  let place ← get
  match place.bytes[index]? with
  | none =>
      let before ← subtract index place.position
      let needed ← add size before 1
      let left ← remaining
      throw (.truncatedInput needed left)
  | some byte =>
      let next ← add size index 1
      let group := Varint.group byte
      if shift = 63 ∧ 1 < group then throw (.malformedVarint .overflow)
      else
        let shifted ← shiftLeft group shift
        let total := value ||| shifted
        if Varint.continues byte then
          if tooFar : 63 < shift + 7 then throw (.malformedVarint .tooLong)
          else groupsFrom total (shift + 7) next
        else
          moveTo next
          pure total
termination_by 64 - shift

def varint : Action UInt64 := do
  let place ← get
  groupsFrom size 0 0 place.position

/-- Both bounds are words. The number has moved the place, and every way to fail puts it back. -/
def varBytes (min max : Nat) : Action Bytes := do
  let start := (← get).position
  let length ← varint size
  if length.toNat < min ∨ max < length.toNat then
    moveTo start
    throw (.lengthOutOfBounds length.toNat min max)
  else
    let count ← narrow size length
    tryCatch (bytes size count) fun error => do
      moveTo start
      throw error

/-- Nothing puts the place back when a URI has been read and is then no text. -/
def body (config : Config) : Kind → Action Attestation
  | .pending => do
      let uri ← describing .ofUri (varBytes size 0 Attestation.maxUri)
      let _ ← config.check (.pending uri)
      pure (.pending uri)
  | .bitcoin => do
      let height ← varint size
      pure (.bitcoin height)

def payload (config : Config) (kind : Kind) : Action Attestation := do
  let attestation ← body size config kind
  expectEnd
  pure attestation

def record (registry : Registry) (config : Config) : Action Attestation := onCopy do
  let ⟨tag, fits⟩ ← exactly size Tag.size
  let tag : Tag := ⟨tag, fits⟩
  let content ← describing .ofPayload (varBytes size 0 Envelope.maxPayload)
  match registry.lookup tag with
  | some kind => within content (payload size config kind)
  | none => pure (.unknown tag content)

/-! ### Sessions -/

def step (session : Session) :
    Session.Request → Option (Except Session.Failure Session.Reply × Session)
  | .bytes count => (bytes size count session.cursor).map (session.answer .read .bytes)
  | .varint => (varint size session.cursor).map (session.answer .read .number)
  | .varBytes min max =>
      (varBytes size min max session.cursor).map (session.answer .read .bytes)
  | .expectEnd => (expectEnd session.cursor).map (session.answer .read fun _ => .done)
  | .record registry config =>
      (record size registry config session.cursor).map (session.answer .read .attestation)
  | .next codec =>
      (record size codec.registry codec.config session.cursor).map
        (session.answer (.decode ∘ .decode) .attestation)
  | .body kind config =>
      (body size config kind session.cursor).map (session.answer .read .attestation)
  | .save => some (.ok .done, { session with saved := session.cursor :: session.saved })
  | .enter min max =>
      match varBytes size min max session.cursor with
      | some (.ok inner, advanced) =>
          some (.ok (.bytes inner), ⟨.ofBytes inner, advanced :: session.saved⟩)
      | some (.error error, after) => some (.error (.read error), { session with cursor := after })
      | none => none
  | .resume =>
      match session.saved with
      | [] => some (.ok .nothingSaved, session)
      | cursor :: saved => some (.ok .done, ⟨cursor, saved⟩)

/-- None as soon as one step has no outcome. -/
def run (session : Session) :
    List Session.Request → Option (List (Except Session.Failure Session.Reply × Session))
  | [] => some []
  | request :: requests => do
      let outcome ← step size session request
      let outcomes ← run outcome.2 requests
      pure (outcome :: outcomes)

end Timestamping.Machine
