import Timestamping.Proofs.Record.Canonical
import Timestamping.Proofs.Record.Refusal

/-!
The same bytes under another registry or another configuration. Both come in only behind the
envelope, and all that they are given is its tag and its payload. Main statements: a record that was
kept for unknown and written again is to every other reader what it was before; and the two policies
about URIs part only where a URI is no text.
-/

namespace Timestamping

/-! ### Handing on what is unknown -/

theorem Envelope.Spells.exists_encode_unknown {text : Bytes} {envelope : Envelope}
    (h : Spells text envelope) :
    ∃ record, (Attestation.unknown envelope.tag envelope.payload).encode = .ok record ∧
      Spells record envelope := by
  rcases h with ⟨back, hBack, -⟩
  have hSize := Nat.lt_of_le_of_lt hBack.length_le (show maxPayload < UInt64.size by decide)
  refine ⟨envelope.encode, ?_, ?_⟩
  · exact Attestation.encode_eq_ok_iff.mpr ⟨envelope.payload, rfl, hBack.length_le, rfl⟩
  · exact ⟨_, VarBytes.spells_encode (Nat.zero_le _) hBack.length_le hSize, rfl⟩

namespace Registry

/-- How an envelope is spelled, and where it stands, says nothing about what is in it. -/
theorem runs_agree (registry : Registry) (config : Config) {envelope : Envelope}
    {first second : Cursor} {firstText secondText : Bytes}
    (hFirst : Envelope.Spells firstText envelope) (firstPrefix : firstText <+: first.rest)
    (hSecond : Envelope.Spells secondText envelope) (secondPrefix : secondText <+: second.rest) :
    (∃ attestation,
      first.run (registry.read config) =
        (.ok attestation, { first with position := first.position + firstText.length }) ∧
      second.run (registry.read config) =
        (.ok attestation, { second with position := second.position + secondText.length })) ∨
    ∃ error, first.run (registry.read config) = (.error error, first) ∧
      second.run (registry.read config) = (.error error, second) := by
  cases hContent : registry.interpret config envelope with
  | ok attestation =>
      exact .inl ⟨attestation, run_read_of_interpret_ok hFirst firstPrefix hContent,
        run_read_of_interpret_ok hSecond secondPrefix hContent⟩
  | error error =>
      exact .inr ⟨error, run_read_of_interpret_error hFirst firstPrefix hContent,
        run_read_of_interpret_error hSecond secondPrefix hContent⟩

/-- What was read as unknown can be written again. Every registry and configuration makes the same
of the new record, all of it, as of the bytes that were read. -/
theorem run_read_encode_unknown {registry : Registry} {config : Config} {cursor : Cursor}
    {tag : Tag} {payload : Bytes} {count : Nat}
    (h : cursor.run (registry.read config) =
      (.ok (.unknown tag payload), { cursor with position := cursor.position + count })) :
    ∃ record, (Attestation.unknown tag payload).encode = .ok record ∧
      ∀ (other : Registry) (policy : Config),
        (∃ attestation,
          (Cursor.ofBytes record).run (other.read policy) =
            (.ok attestation, ⟨record, record.length⟩) ∧
          cursor.run (other.read policy) =
            (.ok attestation, { cursor with position := cursor.position + count })) ∨
        ∃ error,
          (Cursor.ofBytes record).run (other.read policy) = (.error error, .ofBytes record) ∧
          cursor.run (other.read policy) = (.error error, cursor) := by
  rcases (registry.reads_read config).run_eq_ok_iff.mp h with ⟨text, hRecord, hPrefix, hAdvanced⟩
  have hCount : count = text.length := Nat.add_left_cancel (Cursor.mk.inj hAdvanced).2
  have hText := hRecord.spells_of_unknown
  rcases hText.exists_encode_unknown with ⟨record, hEncode, hSpells⟩
  refine ⟨record, hEncode, ?_⟩
  intro other policy
  have whole : record <+: (Cursor.ofBytes record).rest := List.prefix_refl record
  have agree := runs_agree other policy hSpells whole hText hPrefix
  rw [← hCount] at agree
  rw [← Nat.zero_add record.length]
  exact agree

/-- A registry that knows no calendars keeps a promise whose URI breaks off, with a padded length
before it. -/
theorem run_read_encode_unknown_calendar :
    let input : Bytes :=
      [0x83, 0xDF, 0xE3, 0x0D, 0x2E, 0xF9, 0x0C, 0x8E, 0x82, 0x00, 0x05, 0x41, 0xFF]
    let cursor : Cursor := .ofBytes input
    cursor.run (Registry.read ⟨[.bitcoin]⟩ {}) =
      (.ok (.unknown .pending [0x05, 0x41]), { cursor with position := cursor.position + 12 }) ∧
    ∃ record, (Attestation.unknown .pending [0x05, 0x41]).encode = .ok record ∧
      ∀ (other : Registry) (policy : Config),
        (∃ attestation,
          (Cursor.ofBytes record).run (other.read policy) =
            (.ok attestation, ⟨record, record.length⟩) ∧
          cursor.run (other.read policy) =
            (.ok attestation, { cursor with position := cursor.position + 12 })) ∨
        ∃ error,
          (Cursor.ofBytes record).run (other.read policy) = (.error error, .ofBytes record) ∧
          cursor.run (other.read policy) = (.error error, cursor) := by
  intro input cursor
  have hRun : cursor.run (Registry.read ⟨[.bitcoin]⟩ {}) =
      (.ok (.unknown .pending [0x05, 0x41]), { cursor with position := cursor.position + 12 }) := by
    decide +kernel
  exact ⟨hRun, run_read_encode_unknown hRun⟩

end Registry

/-! ### URIs that are no text -/

namespace Kind

theorem Payload.preserveRaw {kind : Kind} {config : Config} {payload : Bytes}
    {attestation : Attestation} (h : kind.Payload config payload attestation) :
    kind.Payload ⟨.preserveRaw⟩ payload attestation := by
  cases h with
  | pending hUri _ => exact .pending hUri nofun
  | bitcoin hHeight => exact .bitcoin hHeight

/-- Only a URI that is no text is refused for the policy. -/
theorem Refusal.preserveRaw {kind : Kind} {config : Config} {payload : Bytes} {error : DecodeError}
    (h : kind.Refusal config payload error) (aboutElse : ∀ fault, error ≠ .invalidUri fault) :
    kind.Refusal ⟨.preserveRaw⟩ payload error := by
  cases h with
  | body refused =>
      cases refused with
      | fields refused => exact .body (.fields refused)
      | notText _ _ _ _ => exact absurd rfl (aboutElse _)
  | leftOver hText left => exact .leftOver hText.preserveRaw left

/-- Without the policy such a payload is read, unless bytes are left over behind the URI. -/
theorem Refusal.of_invalidUri {kind : Kind} {config : Config} {payload : Bytes}
    {fault : Utf8.Fault} (h : kind.Refusal config payload (.invalidUri fault)) :
    config.uriPolicy = .strict ∧
      ((∃ uri, ¬Utf8.IsText uri ∧ kind.Payload ⟨.preserveRaw⟩ payload (.pending uri)) ∨
        ∃ count, kind.Refusal ⟨.preserveRaw⟩ payload (.trailingPayloadBytes count)) := by
  generalize hError : DecodeError.invalidUri fault = error at h
  cases h with
  | body refused =>
      cases refused with
      | fields refused =>
          have hLayout := refused.ofLayout
          rw [← hError] at hLayout
          cases hLayout
      | @notText text uri rest _ hUri strict notText _ =>
          refine ⟨strict, ?_⟩
          have hPayload : Kind.pending.Payload ⟨.preserveRaw⟩ text (.pending uri) :=
            .pending hUri nofun
          by_cases left : rest = []
          · rw [left, List.append_nil]
            exact .inl ⟨uri, notText, hPayload⟩
          · exact .inr ⟨rest.length, .leftOver hPayload left⟩
  | leftOver _ _ => cases hError

end Kind

namespace Registry

theorem Content.preserveRaw {registry : Registry} {config : Config} {tag : Tag} {payload : Bytes}
    {attestation : Attestation} (h : registry.Content config tag payload attestation) :
    registry.Content ⟨.preserveRaw⟩ tag payload attestation := by
  cases h with
  | known member hTag hPayload => exact .known member hTag hPayload.preserveRaw
  | unknown absent => exact .unknown absent

theorem Record.preserveRaw {registry : Registry} {config : Config} {record : Bytes}
    {attestation : Attestation} (h : registry.Record config record attestation) :
    registry.Record ⟨.preserveRaw⟩ record attestation := by
  cases h with
  | intro hPayload hContent => exact .intro hPayload hContent.preserveRaw

theorem Refusal.preserveRaw {registry : Registry} {config : Config} {input : Bytes}
    {error : DecodeError} (h : registry.Refusal config input error)
    (aboutElse : ∀ fault, error ≠ .invalidUri fault) :
    registry.Refusal ⟨.preserveRaw⟩ input error := by
  cases h with
  | envelope refused => exact .envelope refused
  | content hEnvelope member hTag refused =>
      exact .content hEnvelope member hTag (refused.preserveRaw aboutElse)

theorem Refusal.of_invalidUri {registry : Registry} {config : Config} {input : Bytes}
    {fault : Utf8.Fault} (h : registry.Refusal config input (.invalidUri fault)) :
    config.uriPolicy = .strict ∧
      ((∃ record rest uri, ¬Utf8.IsText uri ∧
          registry.Record ⟨.preserveRaw⟩ record (.pending uri) ∧ record ++ rest = input) ∨
        ∃ count, registry.Refusal ⟨.preserveRaw⟩ input (.trailingPayloadBytes count)) := by
  cases h with
  | envelope refused => cases refused.ofLayout
  | @content envelope text rest kind _ hEnvelope member hTag refused =>
      rcases refused.of_invalidUri with ⟨strict, ⟨uri, notText, hPayload⟩ | ⟨count, left⟩⟩
      · refine ⟨strict, .inl ⟨text, rest, uri, notText, ?_, rfl⟩⟩
        rcases hEnvelope with ⟨back, hBack, rfl⟩
        exact .intro hBack (.known member hTag hPayload)
      · exact ⟨strict, .inr ⟨count, .content hEnvelope member hTag left⟩⟩

/-- The two policies differ only in what is refused for a URI that is no text, and then the
indulgent one gives that URI or goes on to complain of bytes that are left over. -/
theorem run_read_strict_preserveRaw (registry : Registry) (cursor : Cursor) :
    let strict := cursor.run (registry.read ⟨.strict⟩)
    let raw := cursor.run (registry.read ⟨.preserveRaw⟩)
    ((∀ fault, strict.1 ≠ .error (.invalidUri fault)) → strict = raw) ∧
    (∀ fault, strict.1 = .error (.invalidUri fault) →
      (∃ uri, raw.1 = .ok (.pending uri) ∧ Utf8.isValid uri = false) ∨
        ∃ count, raw.1 = .error (.trailingPayloadBytes count)) ∧
    (∀ uri, strict.1 = .ok (.pending uri) → Utf8.isValid uri = true) ∧
    ∀ fault, raw.1 ≠ .error (.invalidUri fault) := by
  intro strict raw
  have reads := fun policy => registry.reads_read ⟨policy⟩
  have refuses := fun policy => registry.refuses_read ⟨policy⟩
  refine ⟨?_, ?_, ?_, ?_⟩
  · intro aboutElse
    rcases hStrict : strict with ⟨error | attestation, advanced⟩
    · rcases (refuses .strict).run_eq_error_iff.mp hStrict with ⟨refused, rfl⟩
      rw [hStrict] at aboutElse
      have aboutElse : ∀ fault, error ≠ .invalidUri fault := by
        rintro fault rfl
        exact aboutElse fault rfl
      exact ((refuses .preserveRaw).run_eq_error_iff.mpr
        ⟨refused.preserveRaw aboutElse, rfl⟩).symm
    · rcases (reads .strict).run_eq_ok_iff.mp hStrict with ⟨record, hRecord, hPrefix, rfl⟩
      exact ((reads .preserveRaw).run_eq_ok_iff.mpr
        ⟨record, hRecord.preserveRaw, hPrefix, rfl⟩).symm
  · intro fault hStrict
    have refused := ((refuses .strict).run_eq_error_iff.mp (Prod.ext hStrict rfl)).1
    rcases refused.of_invalidUri.2 with ⟨record, rest, uri, notText, hRecord, hRest⟩ | ⟨count, left⟩
    · have hRaw := (reads .preserveRaw).run_eq_ok_iff.mpr ⟨record, hRecord, ⟨rest, hRest⟩, rfl⟩
      have invalid : Utf8.isValid uri = false := by
        rw [Bool.eq_false_iff, ne_eq, Utf8.isValid_iff]
        exact notText
      exact .inl ⟨uri, congrArg Prod.fst hRaw, invalid⟩
    · have hRaw := (refuses .preserveRaw).run_eq_error_iff.mpr ⟨left, rfl⟩
      exact .inr ⟨count, congrArg Prod.fst hRaw⟩
  · intro uri hStrict
    rcases (reads .strict).run_eq_ok_iff.mp (Prod.ext hStrict rfl) with ⟨record, hRecord, _⟩
    exact Utf8.isValid_iff.mpr (hRecord.roundTrips.2.resolve_left nofun)
  · intro fault hRaw
    have refused := ((refuses .preserveRaw).run_eq_error_iff.mp (Prod.ext hRaw rfl)).1
    cases refused.of_invalidUri.1

/-- The byte behind a URI that is no text is named once the URI is let pass. -/
example : ((Cursor.ofBytes (Tag.pending.bytes ++ [0x03, 0x01, 0xFF, 0x00])).run
    (Registry.standard.read ⟨.preserveRaw⟩)).1 = .error (.trailingPayloadBytes 1) := by decide +kernel

end Registry

end Timestamping
