import Timestamping.Proofs.Record.RoundTrip

/-!
Records as a code. A record says itself where it ends, so none is the beginning of another. Main
statement: records are prefix-free, and two different attestations share one only when exactly one
of them is unknown and has the tag of a known kind.
-/

namespace Timestamping

/-- Unknown, with the tag of a known kind. -/
def Attestation.Mistagged : Attestation → Prop
  | .pending _ => False
  | .bitcoin _ => False
  | .unknown tag _ => tag = .pending ∨ tag = .bitcoin

namespace Registry

/-- One reader makes one attestation of a record. -/
theorem eq_of_encode {registry : Registry} {config : Config} {first second : Attestation}
    {record : Bytes} (hFirst : first.encode = .ok record)
    (firstSurvives : registry.RoundTrips config first) (hSecond : second.encode = .ok record)
    (secondSurvives : registry.RoundTrips config second) : first = second :=
  ((registry.reads_read config).append_inj (record_of_encode hFirst firstSurvives)
    (record_of_encode hSecond secondSurvives) (Eq.refl (record ++ []))).2.1

theorem empty_roundTrips (config : Config) {attestation : Attestation}
    (h : attestation.Mistagged) : empty.RoundTrips config attestation := by
  cases attestation with
  | pending uri => cases h
  | bitcoin height => cases h
  | unknown tag payload => exact fun kind member => absurd member List.not_mem_nil

theorem standard_roundTrips {attestation : Attestation} (h : ¬attestation.Mistagged) :
    standard.RoundTrips ⟨.preserveRaw⟩ attestation := by
  cases attestation with
  | pending uri => exact ⟨List.mem_cons_self, .inl rfl⟩
  | bitcoin height => exact List.mem_cons_of_mem _ List.mem_cons_self
  | unknown tag payload =>
      intro kind _ hTag
      cases kind with
      | pending => exact h (.inl hTag.symm)
      | bitcoin => exact h (.inr hTag.symm)

end Registry

namespace Attestation

variable {first second : Attestation}

theorem eq_iff_of_encode {record : Bytes} (hFirst : first.encode = .ok record)
    (hSecond : second.encode = .ok record) :
    first = second ↔ (first.Mistagged ↔ second.Mistagged) := by
  constructor
  · intro same
    rw [same]
  · intro alike
    by_cases mistagged : first.Mistagged
    · exact Registry.eq_of_encode hFirst (Registry.empty_roundTrips {} mistagged) hSecond
        (Registry.empty_roundTrips {} (alike.mp mistagged))
    · exact Registry.eq_of_encode hFirst (Registry.standard_roundTrips mistagged) hSecond
        (Registry.standard_roundTrips (mt alike.mpr mistagged))

/-- A record that another one begins with is the whole of it, with the same tag and payload. Two
attestations that have it in common are the same unless exactly one of them is mistagged. -/
theorem encode_prefix_free {record longer : Bytes} (hFirst : first.encode = .ok record)
    (hSecond : second.encode = .ok longer) :
    (record <+: longer →
      record = longer ∧ first.tag = second.tag ∧ first.payload = second.payload) ∧
    (record = longer → (first = second ↔ (first.Mistagged ↔ second.Mistagged))) := by
  constructor
  · intro hPrefix
    rcases hPrefix with ⟨rest, hRest⟩
    rcases exists_spells_of_encode hFirst with ⟨firstPayload, hFirstPayload, firstSpells⟩
    rcases exists_spells_of_encode hSecond with ⟨secondPayload, hSecondPayload, secondSpells⟩
    rw [← List.append_nil longer] at hRest
    rcases Envelope.reads_read.append_inj firstSpells secondSpells hRest with ⟨rfl, same, -⟩
    obtain ⟨hTag, hPayload⟩ := Envelope.mk.inj same
    rw [hFirstPayload, hSecondPayload, hPayload]
    exact ⟨rfl, hTag, rfl⟩
  · intro same
    exact eq_iff_of_encode hFirst (same ▸ hSecond)

/-- A URI that a calendar gave, and the same bytes from one who knows no calendars. -/
theorem encode_prefix_free_shared :
    let known : Attestation := .pending [0xFF]
    let kept : Attestation := .unknown .pending [0x01, 0xFF]
    let record : Bytes := [0x83, 0xDF, 0xE3, 0x0D, 0x2E, 0xF9, 0x0C, 0x8E, 0x02, 0x01, 0xFF]
    known.encode = .ok record ∧ kept.encode = .ok record ∧
      (record <+: record → record = record ∧ known.tag = kept.tag ∧ known.payload = kept.payload) ∧
      (record = record → (known = kept ↔ (known.Mistagged ↔ kept.Mistagged))) := by
  intro known kept record
  have hKnown : known.encode = .ok record := by decide +kernel
  have hKept : kept.encode = .ok record := by decide +kernel
  exact ⟨hKnown, hKept, encode_prefix_free hKnown hKept⟩

end Attestation

end Timestamping
