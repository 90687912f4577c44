import Timestamping.Proofs.Record.Grammar
import Timestamping.Proofs.Record.Limits

/-!
Which attestations come back from their records. Writing applies the length limits only, so what
else a codec asks for decides: it must own the tag of a known kind, not own the tag of anything
else, and accept the URI. Main statements: these conditions are exact for every codec, and every
record that is written comes back under some codec.
-/

namespace Timestamping

/-! ### What is written -/

theorem VarBytes.spells_encode {min max : Nat} {content : Bytes} (hMin : min ≤ content.length)
    (hMax : content.length ≤ max) (hSize : content.length < UInt64.size) :
    Spells min max (encode content) content :=
  .intro (Varint.spells_encode _) (UInt64.toNat_ofNat_of_lt hSize).symm hMin hMax

namespace Attestation

theorem payload_pending_eq_ok_iff {uri payload : Bytes} :
    (pending uri).payload = .ok payload ↔ uri.length ≤ maxUri ∧ VarBytes.encode uri = payload := by
  by_cases fits : uri.length ≤ maxUri
  · rw [Attestation.payload, if_pos fits, Except.ok.injEq, and_iff_right fits]
  · rw [Attestation.payload, if_neg fits]
    constructor
    · intro h
      cases h
    · intro h
      exact absurd h.1 fits

theorem encode_eq_ok_iff {attestation : Attestation} {record : Bytes} :
    attestation.encode = .ok record ↔
      ∃ payload, attestation.payload = .ok payload ∧ payload.length ≤ Envelope.maxPayload ∧
        attestation.tag.bytes ++ VarBytes.encode payload = record := by
  cases hPayload : attestation.payload with
  | error error => simp [encode_of_payload_error hPayload]
  | ok payload =>
      rw [encode_of_payload_ok hPayload]
      by_cases fits : payload.length ≤ Envelope.maxPayload
      · simp [fits]
      · simp [fits]

theorem exists_spells_of_encode {attestation : Attestation} {record : Bytes}
    (h : attestation.encode = .ok record) :
    ∃ payload, attestation.payload = .ok payload ∧
      Envelope.Spells record ⟨attestation.tag, payload⟩ := by
  rcases encode_eq_ok_iff.mp h with ⟨payload, hPayload, hLength, rfl⟩
  have hSize : payload.length < UInt64.size := Nat.lt_of_le_of_lt hLength (by decide)
  exact ⟨payload, hPayload, _, VarBytes.spells_encode (Nat.zero_le _) hLength hSize, rfl⟩

end Attestation

/-! ### What comes back -/

namespace Registry

/-- The attestations that a registry and a configuration let come back from their records. -/
def RoundTrips (registry : Registry) (config : Config) : Attestation → Prop
  | .pending uri =>
      .pending ∈ registry.kinds ∧ (config.uriPolicy = .preserveRaw ∨ Utf8.IsText uri)
  | .bitcoin _ => .bitcoin ∈ registry.kinds
  | .unknown tag _ => ∀ kind ∈ registry.kinds, kind.tag ≠ tag

theorem Record.roundTrips {registry : Registry} {config : Config} {record : Bytes}
    {attestation : Attestation} (h : registry.Record config record attestation) :
    registry.RoundTrips config attestation := by
  cases h with
  | intro _ hContent =>
      cases hContent with
      | known member hTag hPayload =>
          cases hPayload with
          | pending _ hPolicy =>
              refine ⟨member, ?_⟩
              cases hConfig : config.uriPolicy with
              | strict => exact .inr (hPolicy hConfig)
              | preserveRaw => exact .inl rfl
          | bitcoin _ => exact member
      | unknown absent => exact absent

theorem record_of_encode {registry : Registry} {config : Config} {record : Bytes}
    {attestation : Attestation} (hEncode : attestation.encode = .ok record)
    (h : registry.RoundTrips config attestation) : registry.Record config record attestation := by
  rcases Attestation.exists_spells_of_encode hEncode with ⟨payload, hPayload, back, hBack, rfl⟩
  refine .intro hBack ?_
  cases attestation with
  | pending uri =>
      rcases Attestation.payload_pending_eq_ok_iff.mp hPayload with ⟨hUri, rfl⟩
      have hSize : uri.length < UInt64.size := Nat.lt_of_le_of_lt hUri (by decide)
      refine .known h.1 rfl (.pending (VarBytes.spells_encode (Nat.zero_le _) hUri hSize) ?_)
      intro strict
      exact h.2.resolve_left (strict ▸ nofun)
  | bitcoin height =>
      cases hPayload
      exact .known h rfl (.bitcoin (Varint.spells_encode height))
  | unknown tag payload =>
      cases hPayload
      exact .unknown h

end Registry

namespace Codec

/-- The record of an attestation says the same attestation again exactly under these conditions. -/
theorem decode_encode_iff (codec : Codec) {attestation : Attestation} {record : Bytes}
    (h : attestation.encode = .ok record) :
    codec.decode record = .ok attestation ↔
      codec.registry.RoundTrips codec.config attestation := by
  rw [decode_eq_ok_iff]
  constructor
  · intro hRecord
    exact hRecord.roundTrips
  · intro survives
    exact Registry.record_of_encode h survives

theorem decode_encode_iff_repeated_kind :
    (Attestation.pending [0xFF]).encode =
        .ok [0x83, 0xDF, 0xE3, 0x0D, 0x2E, 0xF9, 0x0C, 0x8E, 0x02, 0x01, 0xFF] ∧
      ((Codec.mk ⟨[.bitcoin, .pending, .pending]⟩ ⟨.strict⟩).decode
          [0x83, 0xDF, 0xE3, 0x0D, 0x2E, 0xF9, 0x0C, 0x8E, 0x02, 0x01, 0xFF] =
            .ok (.pending [0xFF]) ↔
        Registry.RoundTrips ⟨[.bitcoin, .pending, .pending]⟩ ⟨.strict⟩ (.pending [0xFF])) := by
  have hEncode : (Attestation.pending [0xFF]).encode =
      .ok [0x83, 0xDF, 0xE3, 0x0D, 0x2E, 0xF9, 0x0C, 0x8E, 0x02, 0x01, 0xFF] := by decide +kernel
  exact ⟨hEncode, decode_encode_iff _ hEncode⟩

theorem encode_eq_ok_iff {attestation : Attestation} {record : Bytes} :
    encode attestation = .ok record ↔ attestation.encode = .ok record := by
  rw [encode]
  cases attestation.encode <;> constructor <;> intro h <;> cases h <;> rfl

/-- A codec that reads back what was written: a known tag is read as what it is of, a URI is taken
as it comes, and a tag that is kept for something unknown is owned by nobody. -/
def reading : Attestation → Codec
  | .pending _ => ⟨.standard, ⟨.preserveRaw⟩⟩
  | .bitcoin _ => ⟨.standard, ⟨.strict⟩⟩
  | .unknown _ _ => ⟨.empty, ⟨.strict⟩⟩

theorem reading_roundTrips (attestation : Attestation) :
    (reading attestation).registry.RoundTrips (reading attestation).config attestation := by
  cases attestation with
  | pending uri => exact ⟨List.mem_cons_self, .inl rfl⟩
  | bitcoin height => exact List.mem_cons_of_mem _ List.mem_cons_self
  | unknown tag payload => exact fun kind member => absurd member List.not_mem_nil

theorem standard_roundTrips_iff {attestation : Attestation} :
    Registry.standard.RoundTrips {} attestation ↔
      (∀ uri, attestation = .pending uri → Utf8.IsText uri) ∧
        ∀ tag payload, attestation = .unknown tag payload → tag ≠ .pending ∧ tag ≠ .bitcoin := by
  cases attestation with
  | pending uri =>
      constructor
      · intro h
        refine ⟨?_, nofun⟩
        intro other same
        cases same
        exact h.2.resolve_left nofun
      · intro h
        exact ⟨List.mem_cons_self, .inr (h.1 uri rfl)⟩
  | bitcoin height =>
      exact iff_of_true (List.mem_cons_of_mem _ List.mem_cons_self) ⟨nofun, nofun⟩
  | unknown tag payload =>
      constructor
      · intro h
        refine ⟨nofun, ?_⟩
        intro other _ same
        cases same
        exact ⟨(h .pending List.mem_cons_self).symm,
          (h .bitcoin (List.mem_cons_of_mem _ List.mem_cons_self)).symm⟩
      · intro h kind _
        have hTag := h.2 tag payload rfl
        cases kind with
        | pending => exact hTag.1.symm
        | bitcoin => exact hTag.2.symm

/-- The standard codec gives back what it wrote unless a URI is no text, which it refuses, or the
tag of a known kind was kept for something unknown. Some codec gives it back in any case. -/
theorem standard_decode_encode_iff {attestation : Attestation} {record : Bytes}
    (h : encode attestation = .ok record) :
    (({} : Codec).decode record = .ok attestation ↔
      (∀ uri, attestation = .pending uri → Utf8.IsText uri) ∧
        ∀ tag payload, attestation = .unknown tag payload → tag ≠ .pending ∧ tag ≠ .bitcoin) ∧
    ∃ codec : Codec, codec.decode record = .ok attestation := by
  have hEncode := encode_eq_ok_iff.mp h
  constructor
  · rw [decode_eq_ok_iff, ← standard_roundTrips_iff]
    exact ⟨Registry.Record.roundTrips, Registry.record_of_encode hEncode⟩
  · exact ⟨reading attestation, decode_eq_ok_iff.mpr
      (Registry.record_of_encode hEncode (reading_roundTrips attestation))⟩

theorem standard_decode_encode_iff_own_tag :
    encode (.unknown ⟨[1, 2, 3, 4, 5, 6, 7, 8], rfl⟩ [0x80]) =
        .ok [1, 2, 3, 4, 5, 6, 7, 8, 0x01, 0x80] ∧
      (({} : Codec).decode [1, 2, 3, 4, 5, 6, 7, 8, 0x01, 0x80] =
          .ok (.unknown ⟨[1, 2, 3, 4, 5, 6, 7, 8], rfl⟩ [0x80]) ↔
        (∀ uri, Attestation.unknown ⟨[1, 2, 3, 4, 5, 6, 7, 8], rfl⟩ [0x80] = .pending uri →
            Utf8.IsText uri) ∧
          ∀ tag payload, Attestation.unknown ⟨[1, 2, 3, 4, 5, 6, 7, 8], rfl⟩ [0x80] =
            .unknown tag payload → tag ≠ .pending ∧ tag ≠ .bitcoin) ∧
      ∃ codec : Codec, codec.decode [1, 2, 3, 4, 5, 6, 7, 8, 0x01, 0x80] =
        .ok (.unknown ⟨[1, 2, 3, 4, 5, 6, 7, 8], rfl⟩ [0x80]) := by
  have hEncode : encode (.unknown ⟨[1, 2, 3, 4, 5, 6, 7, 8], rfl⟩ [0x80]) =
      .ok [1, 2, 3, 4, 5, 6, 7, 8, 0x01, 0x80] := by decide +kernel
  exact ⟨hEncode, standard_decode_encode_iff hEncode⟩

theorem standard_decode_encode_fails :
    ¬∀ (attestation : Attestation) (record : Bytes), encode attestation = .ok record →
      ({} : Codec).decode record = .ok attestation := by
  intro promise
  -- A URI that is no text is written, and then refused.
  have hEncode : encode (.pending [0xFF]) =
      .ok [0x83, 0xDF, 0xE3, 0x0D, 0x2E, 0xF9, 0x0C, 0x8E, 0x02, 0x01, 0xFF] := by decide +kernel
  have hDecode : ({} : Codec).decode
      [0x83, 0xDF, 0xE3, 0x0D, 0x2E, 0xF9, 0x0C, 0x8E, 0x02, 0x01, 0xFF] =
        .error (.decode (.invalidUri (.malformed 0 1))) := by decide +kernel
  rw [promise _ _ hEncode] at hDecode
  cases hDecode

end Codec

end Timestamping
