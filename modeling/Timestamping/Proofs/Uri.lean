import Timestamping.Proofs.Record.RoundTrip
import Timestamping.Proofs.Utf8.Fault

/-!
A calendar's URI as bytes and as text. It is read strictly or not, it is asked whether it is text,
and it is shown. Main statement: the three go by the same pieces, so a URI is refused exactly when
what is shown is not what came in, and the refusal says where the shown text departs from it.
-/

namespace Timestamping

namespace Kind

/-- A body that is all there is refused for its URI alone. -/
theorem fst_decodeAt_strict {uri : Bytes} (short : uri.length ≤ Attestation.maxUri) :
    (pending.decodeAt ⟨.strict⟩ (.ofBytes (VarBytes.encode uri))).1 =
      match Utf8.fault? uri with
      | some fault => .error (.invalidUri fault)
      | none => .ok (.pending uri) := by
  have hUri := VarBytes.spells_encode (Nat.zero_le _) short
    (Nat.lt_of_le_of_lt short (by decide))
  have hPrefix : VarBytes.encode uri <+: (Cursor.ofBytes (VarBytes.encode uri)).rest :=
    List.prefix_refl _
  have hRun := (reads_fields .pending).run_eq_ok_iff.mpr ⟨_, ⟨uri, hUri, rfl⟩, hPrefix, rfl⟩
  rw [decodeAt, hRun]
  change ((Config.mk .strict).check (.pending uri)).map _ = _
  rw [Config.check]
  cases Utf8.fault? uri with
  | none => rfl
  | some fault => rfl

theorem decodeAt_strict_eq_ok_iff {uri : Bytes} (short : uri.length ≤ Attestation.maxUri) :
    (pending.decodeAt ⟨.strict⟩ (.ofBytes (VarBytes.encode uri))).1 = .ok (.pending uri) ↔
      Utf8.fault? uri = none := by
  rw [fst_decodeAt_strict short]
  cases Utf8.fault? uri with
  | none => simp
  | some fault => simp

theorem decodeAt_strict_eq_error_iff {uri : Bytes} (short : uri.length ≤ Attestation.maxUri)
    {fault : Utf8.Fault} :
    (pending.decodeAt ⟨.strict⟩ (.ofBytes (VarBytes.encode uri))).1 = .error (.invalidUri fault) ↔
      Utf8.fault? uri = some fault := by
  rw [fst_decodeAt_strict short]
  cases Utf8.fault? uri with
  | none => simp
  | some other => simp

end Kind

namespace Utf8

variable {bytes : Bytes}

theorem isValid_eq_false_iff : isValid bytes = false ↔ ¬IsText bytes := by
  rw [← isValid_iff, Bool.not_eq_true]

theorem isValid_eq_false_iff_exists :
    isValid bytes = false ↔ ∃ fault, fault? bytes = some fault := by
  rw [isValid, Option.isNone_eq_false_iff, Option.isSome_iff_exists]

end Utf8

/-- Reading strictly refuses the bytes of a URI exactly when they are no text, which is when what is
shown of them has other bytes. The refusal is the one fault that describes them. A URI that was made
of text is that text. -/
theorem uri_views_agree :
    (∀ raw : Bytes, raw.length ≤ 1000 →
      let outcome := (Kind.pending.decodeAt ⟨.strict⟩ (.ofBytes (VarBytes.encode raw))).1
      ((∃ fault, outcome = .error (.invalidUri fault)) ↔ Utf8.isValid raw = false) ∧
      (Utf8.isValid raw = false ↔ Utf8.encode (Utf8.readable raw) ≠ raw) ∧
      (Utf8.encode (Utf8.readable raw) ≠ raw ↔ ¬∃ text : Text, Utf8.encode text = raw) ∧
      (outcome = .ok (.pending raw) ↔ Utf8.isValid raw = true) ∧
      ∀ fault, outcome = .error (.invalidUri fault) ↔ fault.Describes raw) ∧
    ∀ text : Text, ∃ uri, Attestation.ofUri text = .pending uri ∧ Utf8.isValid uri = true ∧
      Utf8.readable uri = text := by
  constructor
  · intro raw short outcome
    have refused (fault : Utf8.Fault) :
        outcome = .error (.invalidUri fault) ↔ Utf8.fault? raw = some fault :=
      Kind.decodeAt_strict_eq_error_iff short
    refine ⟨?_, ?_, ?_, ?_, ?_⟩
    · simp only [refused, Utf8.isValid_eq_false_iff_exists]
    · rw [Utf8.isValid_eq_false_iff, ne_eq, Utf8.encode_readable_eq_iff]
    · rw [ne_eq, Utf8.encode_readable_eq_iff, Utf8.IsText]
    · rw [Kind.decodeAt_strict_eq_ok_iff short, Utf8.fault?_eq_none_iff, Utf8.isValid_iff]
    · intro fault
      rw [refused, Utf8.fault?_eq_some_iff]
  · intro text
    exact ⟨Utf8.encode text, rfl, Utf8.isValid_iff.mpr ⟨text, rfl⟩, Utf8.readable_encode text⟩

theorem uri_views_agree_two_faults :
    let raw : Bytes := [0x61, 0xE2, 0x82, 0x41, 0xC3]
    let outcome := (Kind.pending.decodeAt ⟨.strict⟩ (.ofBytes (VarBytes.encode raw))).1
    raw.length ≤ 1000 ∧
    ((∃ fault, outcome = .error (.invalidUri fault)) ↔ Utf8.isValid raw = false) ∧
    Utf8.isValid raw = false ∧
    (Utf8.isValid raw = false ↔ Utf8.encode (Utf8.readable raw) ≠ raw) ∧
    (Utf8.encode (Utf8.readable raw) ≠ raw ↔ ¬∃ text : Text, Utf8.encode text = raw) ∧
    (outcome = .ok (.pending raw) ↔ Utf8.isValid raw = true) ∧
    outcome = .error (.invalidUri (.malformed 1 2)) ∧
    (Utf8.Fault.malformed 1 2).Describes raw := by
  intro raw outcome
  have short : raw.length ≤ 1000 := by decide
  have hValid : Utf8.isValid raw = false := by decide +kernel
  have hFault : Utf8.fault? raw = some (.malformed 1 2) := by decide +kernel
  have hOutcome : outcome = .error (.invalidUri (.malformed 1 2)) :=
    (Kind.decodeAt_strict_eq_error_iff short).mpr hFault
  obtain ⟨refused, shown, text, taken, described⟩ := uri_views_agree.1 raw short
  exact ⟨short, refused, hValid, shown, text, taken, hOutcome, (described _).mp hOutcome⟩

/-- The piece that was broken off is shown as one character, and so is the one that the end cuts. -/
example : Utf8.readable [0x61, 0xE2, 0x82, 0x41, 0xC3] = ['a', '\uFFFD', 'A', '\uFFFD'] := by decide +kernel

end Timestamping
