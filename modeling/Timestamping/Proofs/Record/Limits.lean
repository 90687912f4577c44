import Timestamping.Attestation
import Timestamping.Proofs.Varint.Spelling

/-!
Which attestations have a record. Two limits stand against it, one for a URI and one for a payload,
and an attestation can only meet the one of its own kind. Main statements: the record, when there is
one, is the tag, the length and the payload; and the refusals are exactly two.
-/

namespace Timestamping.Attestation

def WithinLimits : Attestation → Prop
  | .pending uri => uri.length ≤ 1000
  | .bitcoin _ => True
  | .unknown _ payload => payload.length ≤ 8192

/-- What is said of an attestation that has no record. -/
inductive Exceeds : Attestation → EncodeError → Prop
  | pending {uri : Bytes} : 1000 < uri.length → Exceeds (.pending uri) (.uriTooLarge uri.length 1000)
  | unknown {tag : Tag} {payload : Bytes} : 8192 < payload.length →
      Exceeds (.unknown tag payload) (.payloadTooLarge payload.length 8192)

theorem encode_of_payload_ok {attestation : Attestation} {payload : Bytes}
    (h : attestation.payload = .ok payload) : attestation.encode =
      if payload.length ≤ Envelope.maxPayload then
        .ok (attestation.tag.bytes ++ VarBytes.encode payload)
      else .error (.payloadTooLarge payload.length Envelope.maxPayload) := by
  rw [encode, envelope, h]
  by_cases fits : payload.length ≤ Envelope.maxPayload
  · rw [if_pos fits]
    change Envelope.encode <$> (if payload.length ≤ Envelope.maxPayload then _ else _) = _
    rw [if_pos fits]
    rfl
  · rw [if_neg fits]
    change Envelope.encode <$> (if payload.length ≤ Envelope.maxPayload then _ else _) = _
    rw [if_neg fits]
    rfl

theorem encode_of_payload_error {attestation : Attestation} {error : EncodeError}
    (h : attestation.payload = .error error) : attestation.encode = .error error := by
  rw [encode, envelope, h]
  rfl

/-- A URI of a thousand bytes needs two more for its length, a height needs ten at most. -/
theorem length_payload_le {attestation : Attestation} {payload : Bytes}
    (within : attestation.WithinLimits) (h : attestation.payload = .ok payload) :
    payload.length ≤ Envelope.maxPayload := by
  cases attestation with
  | pending uri =>
      have hUri : uri.length ≤ maxUri := within
      rw [Attestation.payload, if_pos hUri] at h
      cases h
      change uri.length ≤ 1000 at hUri
      have hNumber : (UInt64.ofNat uri.length).toNat < 128 ^ (1 + 1) := by
        rw [UInt64.toNat_ofNat']
        omega
      have hFront := (Varint.length_encode_le_iff _ 1).mpr hNumber
      rw [VarBytes.encode, List.length_append]
      exact Nat.le_trans (Nat.add_le_add hFront hUri) (by decide)
  | bitcoin height =>
      cases h
      exact Nat.le_trans (Varint.spells_encode height).length_le (by decide)
  | unknown tag content =>
      cases h
      exact within

theorem exists_payload {attestation : Attestation} (within : attestation.WithinLimits) :
    ∃ payload, attestation.payload = .ok payload := by
  cases attestation with
  | pending uri => exact ⟨_, if_pos within⟩
  | bitcoin height => exact ⟨_, rfl⟩
  | unknown tag payload => exact ⟨_, rfl⟩

/-- The record of an attestation within the limits. -/
theorem encode_of_withinLimits {attestation : Attestation} (within : attestation.WithinLimits) :
    ∃ payload, attestation.payload = .ok payload ∧ attestation.encode = .ok (attestation.tag.bytes ++
      (Varint.encode (UInt64.ofNat payload.length) ++ payload)) := by
  rcases exists_payload within with ⟨payload, hPayload⟩
  refine ⟨payload, hPayload, ?_⟩
  rw [encode_of_payload_ok hPayload, if_pos (length_payload_le within hPayload)]
  rfl

theorem Exceeds.encode_eq {attestation : Attestation} {error : EncodeError}
    (h : attestation.Exceeds error) : attestation.encode = .error error := by
  cases h with
  | pending large => exact encode_of_payload_error (if_neg (Nat.not_le.mpr large))
  | @unknown tag payload large =>
      have hPayload : (Attestation.unknown tag payload).payload = .ok payload := rfl
      rw [encode_of_payload_ok hPayload]
      exact if_neg (Nat.not_le.mpr large)

theorem withinLimits_or_exceeds (attestation : Attestation) :
    attestation.WithinLimits ∨ ∃ error, attestation.Exceeds error := by
  cases attestation with
  | pending uri =>
      by_cases within : uri.length ≤ 1000
      · exact .inl within
      · exact .inr ⟨_, .pending (Nat.not_le.mp within)⟩
  | bitcoin height => exact .inl trivial
  | unknown tag payload =>
      by_cases within : payload.length ≤ 8192
      · exact .inl within
      · exact .inr ⟨_, .unknown (Nat.not_le.mp within)⟩

theorem exists_encode_eq_ok_iff {attestation : Attestation} :
    (∃ output, attestation.encode = .ok output) ↔ attestation.WithinLimits := by
  constructor
  · intro h
    rcases h with ⟨output, hOutput⟩
    rcases attestation.withinLimits_or_exceeds with within | ⟨error, exceeds⟩
    · exact within
    · rw [exceeds.encode_eq] at hOutput
      cases hOutput
  · intro within
    rcases encode_of_withinLimits within with ⟨payload, _, hEncode⟩
    exact ⟨_, hEncode⟩

theorem encode_eq_error_iff {attestation : Attestation} {error : EncodeError} :
    attestation.encode = .error error ↔ attestation.Exceeds error := by
  constructor
  · intro h
    rcases attestation.withinLimits_or_exceeds with within | ⟨cause, exceeds⟩
    · rcases encode_of_withinLimits within with ⟨payload, _, hEncode⟩
      rw [hEncode] at h
      cases h
    · rw [exceeds.encode_eq] at h
      cases h
      exact exceeds
  · exact Exceeds.encode_eq

end Timestamping.Attestation
