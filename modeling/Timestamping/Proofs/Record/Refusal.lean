import Timestamping.Proofs.Record.Grammar
import Timestamping.Proofs.Varint.Refusal

/-!
What is said of a record that is refused. The envelope is held against its own rules whatever its
tag is; only when all of it is there does a registered kind look into the payload, and counts from
there on are counts within the payload. Main statement: these are all the refusals of a reader of
records, each with the numbers that it reports, and everything else is read.
-/

namespace Timestamping

/-! ### Payloads -/

theorem Config.check_eq_error_iff {config : Config} {attestation : Attestation}
    {error : DecodeError} :
    config.check attestation = .error error ↔ ∃ uri fault, attestation = .pending uri ∧
      config.uriPolicy = .strict ∧ Utf8.fault? uri = some fault ∧ .invalidUri fault = error := by
  cases attestation with
  | pending uri =>
      rw [check]
      cases config.uriPolicy <;> cases hFault : Utf8.fault? uri <;> simp [hFault]
  | bitcoin height => simp [check]
  | unknown tag payload => simp [check]

namespace Kind

/-- The payloads in which a kind does not find its fields. -/
def FieldsRefusal : Kind → Refusals
  | .pending => VarBytes.Refusal 0 Attestation.maxUri (.uriTooLarge · Attestation.maxUri)
  | .bitcoin => Varint.Refusal

theorem refuses_fields (kind : Kind) : kind.fields.Refuses kind.FieldsRefusal := by
  cases kind with
  | pending =>
      exact (VarBytes.refuses_read_mapError 0 Attestation.maxUri .ofUri
        (fun _ _ => rfl) (fun _ => rfl)).map Attestation.pending
  | bitcoin => exact Varint.refuses_read.map Attestation.bitcoin

/-- The payloads that are refused for their fields, or for a URI that is no text, whatever comes
behind the fields. -/
inductive BodyRefusal (config : Config) : Kind → Refusals
  | fields {kind : Kind} {payload : Bytes} {error : DecodeError} :
      kind.FieldsRefusal payload error → BodyRefusal config kind payload error
  | notText {text uri rest : Bytes} {fault : Utf8.Fault} :
      VarBytes.Spells 0 Attestation.maxUri text uri → config.uriPolicy = .strict →
      ¬Utf8.IsText uri → Utf8.fault? uri = some fault →
      BodyRefusal config .pending (text ++ rest) (.invalidUri fault)

/-- Bytes that are left over are the last thing to be seen. -/
inductive Refusal (config : Config) (kind : Kind) : Refusals
  | body {payload : Bytes} {error : DecodeError} : kind.BodyRefusal config payload error →
      Refusal config kind payload error
  | leftOver {text rest : Bytes} {attestation : Attestation} :
      kind.Payload config text attestation → rest ≠ [] →
      Refusal config kind (text ++ rest) (.trailingPayloadBytes rest.length)

theorem refuses_body (kind : Kind) (config : Config) :
    (kind.body config).Refuses (BodyRefusal config kind) := by
  apply (kind.refuses_fields.bind kind.reads_fields fun attestation =>
    Reader.refuses_check attestation (config.check attestation)).congr
  intro payload error
  constructor
  · intro h
    rcases h with refused | ⟨text, _, rest, hFields, hCheck, rfl⟩
    · exact .fields refused
    · rcases Config.check_eq_error_iff.mp hCheck with ⟨uri, fault, rfl, strict, hFault, rfl⟩
      have notText := Utf8.not_isText_of_fault? hFault
      cases kind with
      | pending =>
          rcases hFields with ⟨_, hUri, same⟩
          cases same
          exact .notText hUri strict notText hFault
      | bitcoin =>
          rcases hFields with ⟨_, _, impossible⟩
          cases impossible
  · intro h
    cases h with
    | fields refused => exact .inl refused
    | notText hUri strict _ hFault =>
        exact .inr ⟨_, _, _, ⟨_, hUri, rfl⟩,
          Config.check_eq_error_iff.mpr ⟨_, _, rfl, strict, hFault, rfl⟩, rfl⟩

theorem decode_eq_error_iff {kind : Kind} {config : Config} {payload : Bytes}
    {error : DecodeError} :
    kind.decode config payload = .error error ↔ kind.Refusal config payload error := by
  rw [decode, Reader.readAll_eq_error_iff]
  constructor
  · intro h
    rcases h with refused | ⟨attestation, rest, hBody, left, rfl⟩
    · exact .body ((kind.refuses_body config).mp refused)
    · rcases (kind.reads_body config).mp hBody with ⟨text, hText, rfl⟩
      exact .leftOver hText left
  · intro h
    cases h with
    | body refused => exact .inl ((kind.refuses_body config).mpr refused)
    | leftOver hText left =>
        exact .inr ⟨_, _, (kind.reads_body config).mpr ⟨_, hText, rfl⟩, left, rfl⟩

end Kind

/-! ### Records -/

/-- What is refused whatever the tag is. -/
inductive Envelope.Refusal : Refusals
  | tag {input : Bytes} : input.length < Tag.size →
      Refusal input (.truncatedInput Tag.size input.length)
  | payload {tag : Tag} {input : Bytes} {error : DecodeError} :
      VarBytes.Refusal 0 maxPayload (.payloadTooLarge · maxPayload) input error →
      Refusal (tag.bytes ++ input) error

theorem Envelope.refuses_read : read.Refuses Refusal := by
  have hPayload := VarBytes.refuses_read_mapError 0 maxPayload .ofPayload
    (fun _ _ => rfl) (fun _ => rfl)
  apply (Tag.refuses_read.bind Tag.reads_read fun tag => hPayload.map (mk tag)).congr
  intro input error
  constructor
  · intro h
    rcases h with ⟨short, rfl⟩ | ⟨_, tag, rest, rfl, refused, rfl⟩
    · exact .tag short
    · exact .payload refused
  · intro h
    cases h with
    | tag short => exact .inl ⟨short, rfl⟩
    | payload refused => exact .inr ⟨_, _, _, rfl, refused, rfl⟩

namespace Registry

/-- The content is only looked at behind the tag of a registered kind, and when the whole envelope
is there. -/
inductive Refusal (registry : Registry) (config : Config) : Refusals
  | envelope {input : Bytes} {error : DecodeError} : Envelope.Refusal input error →
      Refusal registry config input error
  | content {envelope : Envelope} {text rest : Bytes} {kind : Kind} {error : DecodeError} :
      Envelope.Spells text envelope → kind ∈ registry.kinds → kind.tag = envelope.tag →
      kind.Refusal config envelope.payload error →
      Refusal registry config (text ++ rest) error

theorem interpret_eq_error_iff {registry : Registry} {config : Config} {envelope : Envelope}
    {error : DecodeError} :
    registry.interpret config envelope = .error error ↔
      ∃ kind ∈ registry.kinds, kind.tag = envelope.tag ∧
        kind.Refusal config envelope.payload error := by
  rw [interpret]
  cases hLookup : registry.lookup envelope.tag with
  | none =>
      have absent := lookup_eq_none_iff.mp hLookup
      constructor
      · intro h
        cases h
      · intro h
        rcases h with ⟨kind, member, hTag, _⟩
        exact absurd hTag (absent kind member)
  | some kind =>
      obtain ⟨member, hTag⟩ := lookup_eq_some_iff.mp hLookup
      dsimp only
      rw [Kind.decode_eq_error_iff]
      constructor
      · intro refused
        exact ⟨kind, member, hTag, refused⟩
      · intro h
        rcases h with ⟨other, _, hOther, refused⟩
        exact Kind.tag_injective (hTag.trans hOther.symm) ▸ refused

theorem refuses_read (registry : Registry) (config : Config) :
    (registry.read config).Refuses (registry.Refusal config) := by
  apply (Envelope.refuses_read.bind Envelope.reads_read fun envelope =>
    Reader.refuses_lift (registry.interpret config envelope)).congr
  intro input error
  constructor
  · intro h
    rcases h with refused | ⟨text, envelope, rest, hEnvelope, hContent, rfl⟩
    · exact .envelope refused
    · rcases interpret_eq_error_iff.mp hContent with ⟨kind, member, hTag, refused⟩
      exact .content hEnvelope member hTag refused
  · intro h
    cases h with
    | envelope refused => exact .inl refused
    | content hEnvelope member hTag refused =>
        exact .inr ⟨_, _, _, hEnvelope,
          interpret_eq_error_iff.mpr ⟨_, member, hTag, refused⟩, rfl⟩

end Registry

/-! ### Errors of records -/

/-- Errors that a record can be refused with. The others are about bounds that a caller gives and
about tags that are given as text or as bytes of any length. -/
def DecodeError.OfRecord : DecodeError → Prop
  | .lengthOutOfBounds _ _ _ => False
  | .invalidTag _ => False
  | _ => True

/-- Errors about how bytes are laid out, before it is asked what they say. -/
def DecodeError.OfLayout : DecodeError → Prop
  | .truncatedInput _ _ => True
  | .payloadTooLarge _ _ => True
  | .uriTooLarge _ _ => True
  | .malformedVarint _ => True
  | _ => False

theorem DecodeError.OfLayout.ofRecord {error : DecodeError} (h : error.OfLayout) :
    error.OfRecord := by
  cases error with
  | lengthOutOfBounds _ _ _ => cases h
  | invalidTag _ => cases h
  | _ => trivial

theorem Varint.Refusal.ofLayout {input : Bytes} {error : DecodeError} (h : Refusal input error) :
    error.OfLayout := by
  cases h <;> trivial

theorem VarBytes.Refusal.ofLayout {min max : Nat} {outside : Nat → DecodeError} {input : Bytes}
    {error : DecodeError} (h : Refusal min max outside input error)
    (hOutside : ∀ length, (outside length).OfLayout) : error.OfLayout := by
  cases h with
  | number unreadable => exact unreadable.ofLayout
  | outside _ _ => exact hOutside _
  | cut _ _ _ _ => trivial

theorem Kind.FieldsRefusal.ofLayout {kind : Kind} {payload : Bytes} {error : DecodeError}
    (h : kind.FieldsRefusal payload error) : error.OfLayout := by
  cases kind with
  | pending => exact VarBytes.Refusal.ofLayout h fun _ => trivial
  | bitcoin => exact Varint.Refusal.ofLayout h

theorem Kind.Refusal.ofRecord {kind : Kind} {config : Config} {payload : Bytes}
    {error : DecodeError} (h : kind.Refusal config payload error) : error.OfRecord := by
  cases h with
  | body refused =>
      cases refused with
      | fields refused => exact refused.ofLayout.ofRecord
      | notText _ _ _ _ => trivial
  | leftOver _ _ => trivial

theorem Envelope.Refusal.ofLayout {input : Bytes} {error : DecodeError} (h : Refusal input error) :
    error.OfLayout := by
  cases h with
  | tag _ => trivial
  | payload refused => exact refused.ofLayout fun _ => trivial

namespace Registry

theorem Refusal.ofRecord {registry : Registry} {config : Config} {input : Bytes}
    {error : DecodeError} (h : registry.Refusal config input error) : error.OfRecord := by
  cases h with
  | envelope refused => exact refused.ofLayout.ofRecord
  | content _ _ _ refused => exact refused.ofRecord

/-! ### Reading at a cursor -/

theorem run_read_of_interpret_ok {cursor : Cursor} {registry : Registry} {config : Config}
    {envelope : Envelope} {text : Bytes} {attestation : Attestation}
    (hEnvelope : Envelope.Spells text envelope) (hPrefix : text <+: cursor.rest)
    (h : registry.interpret config envelope = .ok attestation) :
    cursor.run (registry.read config) =
      (.ok attestation, { cursor with position := cursor.position + text.length }) := by
  rcases hEnvelope with ⟨back, hPayload, rfl⟩
  exact (registry.reads_read config).run_eq_ok_iff.mpr
    ⟨_, .intro hPayload (interpret_eq_ok_iff.mp h), hPrefix, rfl⟩

theorem run_read_of_interpret_error {cursor : Cursor} {registry : Registry} {config : Config}
    {envelope : Envelope} {text : Bytes} {error : DecodeError}
    (hEnvelope : Envelope.Spells text envelope) (hPrefix : text <+: cursor.rest)
    (h : registry.interpret config envelope = .error error) :
    cursor.run (registry.read config) = (.error error, cursor) := by
  rcases interpret_eq_error_iff.mp h with ⟨kind, member, hTag, refused⟩
  rcases hPrefix with ⟨rest, hRest⟩
  refine (registry.refuses_read config).run_eq_error_iff.mpr ⟨?_, rfl⟩
  rw [← hRest]
  exact .content hEnvelope member hTag refused

theorem run_read_of_unregistered {cursor : Cursor} {registry : Registry} {config : Config}
    {envelope : Envelope} {text : Bytes} (hEnvelope : Envelope.Spells text envelope)
    (hPrefix : text <+: cursor.rest) (absent : ∀ kind ∈ registry.kinds, kind.tag ≠ envelope.tag) :
    cursor.run (registry.read config) = (.ok (.unknown envelope.tag envelope.payload),
      { cursor with position := cursor.position + text.length }) :=
  run_read_of_interpret_ok hEnvelope hPrefix (interpret_eq_ok_iff.mpr (.unknown absent))

/-- Reading at a cursor fails exactly with the refusals of the bytes that are left there, and then
stays where it is. It reads everything else, and among that every whole envelope whose tag belongs
to no registered kind. -/
theorem run_read_eq_error_iff (cursor : Cursor) (registry : Registry) (config : Config) :
    (∀ error advanced, cursor.run (registry.read config) = (.error error, advanced) ↔
      registry.Refusal config cursor.rest error ∧ advanced = cursor) ∧
    ((∀ error, ¬registry.Refusal config cursor.rest error) →
      ∃ attestation advanced,
        cursor.run (registry.read config) = (.ok attestation, advanced)) ∧
    (∀ error advanced, cursor.run (registry.read config) = (.error error, advanced) →
      (∀ length min max, error ≠ .lengthOutOfBounds length min max) ∧
        ∀ fault, error ≠ .invalidTag fault) ∧
    ∀ envelope text, Envelope.Spells text envelope → text <+: cursor.rest →
      (∀ kind ∈ registry.kinds, kind.tag ≠ envelope.tag) →
      cursor.run (registry.read config) = (.ok (.unknown envelope.tag envelope.payload),
        { cursor with position := cursor.position + text.length }) := by
  have refuses : ∀ {error advanced},
      cursor.run (registry.read config) = (.error error, advanced) ↔
        registry.Refusal config cursor.rest error ∧ advanced = cursor :=
    (registry.refuses_read config).run_eq_error_iff
  refine ⟨fun _ _ => refuses, ?_, ?_, fun _ _ => run_read_of_unregistered⟩
  · intro none
    rcases hRun : cursor.run (registry.read config) with ⟨error | attestation, advanced⟩
    · exact absurd (refuses.mp hRun).1 (none error)
    · exact ⟨attestation, advanced, rfl⟩
  · intro error advanced hRun
    have hError := (refuses.mp hRun).1.ofRecord
    constructor
    · rintro length min max rfl
      exact hError
    · rintro fault rfl
      exact hError

/-- A URI that is no text is named before the byte that is left over behind it. -/
example : ((Cursor.ofBytes (Tag.pending.bytes ++ [0x03, 0x01, 0xFF, 0x00])).run
    (Registry.standard.read {})).1 = .error (.invalidUri (.malformed 0 1)) := by cbv

end Registry

end Timestamping
