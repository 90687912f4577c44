import Timestamping.Proofs.Record.Stream
import Timestamping.Proofs.Text.Blank
import Timestamping.Proofs.Text.Hex

/-!
Records in hexadecimal. White space around the digits does not count, nor does the case of letters.
Main statement: the hexadecimal of some bytes is decoded as the bytes are, what is no hexadecimal is
refused as that before any record is looked for, and an attestation that has a record has one in
lower-case digits.
-/

namespace Timestamping

/-! ### Digits and white space -/

theorem Hex.Spells.isBare {text : Text} {bytes : Bytes} (h : Spells text bytes) :
    Blank.IsBare text := by
  apply Blank.IsBare.of_forall
  intro character member
  have digit := h.isDigitChar character member
  exact of_ascii (fun character => IsDigitChar character → Blank.isBlank character = false)
    (by decide +kernel) digit.toNat_lt digit

namespace Codec

variable {codec : Codec} {text front back : Text}

/-! ### Reading -/

theorem decode_ne_hex (input : Bytes) (fault : Hex.Fault) :
    codec.decode input ≠ .error (.hex fault) := by
  intro h
  rw [decode] at h
  cases hFirst : codec.first input with
  | error error =>
      rcases first_eq_error_iff.mp hFirst with ⟨cause, _, rfl⟩
      rw [hFirst] at h
      cases h
  | ok result =>
      rw [hFirst] at h
      change (if result.2 = input.length then _ else _) = _ at h
      split at h
      · cases h
      · cases h

theorem decodeHex_of_spells {bytes : Bytes} (hFront : Blank.IsSpace front)
    (hBack : Blank.IsSpace back) (h : Hex.Spells text bytes) :
    codec.decodeHex (front ++ text ++ back) = codec.decode bytes := by
  rw [decodeHex, Blank.trim_of_isBare hFront hBack h.isBare, h.decode_eq]
  rfl

theorem decodeHex_eq_hex_iff {fault : Hex.Fault} : codec.decodeHex text = .error (.hex fault) ↔
    Hex.Refusal (Utf8.encode (Blank.trim text)) fault := by
  rw [← Hex.decode_eq_error_iff, decodeHex]
  cases Hex.decode (Blank.trim text) with
  | error cause =>
      constructor
      · intro h
        cases h
        rfl
      · intro h
        cases h
        rfl
  | ok input => exact iff_of_false (decode_ne_hex input fault) nofun

/-! ### Writing -/

theorem encodeHex_eq_ok_iff {attestation : Attestation} : encodeHex attestation = .ok text ↔
    ∃ record, encode attestation = .ok record ∧ Hex.encode record = text := by
  rw [encodeHex]
  cases encode attestation with
  | error error => exact iff_of_false nofun fun ⟨_, impossible, _⟩ => nomatch impossible
  | ok record =>
      constructor
      · intro h
        cases h
        exact ⟨record, rfl, rfl⟩
      · rintro ⟨_, hRecord, rfl⟩
        cases hRecord
        rfl

/-- Any spelling of some bytes in digits, with any white space around it, is decoded as these bytes.
Trimming takes just that white space, and what it leaves is refused as no hexadecimal for an odd
number of bytes, or else for the first byte that is no digit. What is written is lower case and is
decoded as the record that it spells. -/
theorem hex_forms_agree (codec : Codec) :
    (∀ (bytes : Bytes) (digits front back : Text), Hex.Spells digits bytes →
      Blank.IsSpace front → Blank.IsSpace back →
      codec.decodeHex (front ++ digits ++ back) = codec.decode bytes) ∧
    (∀ text front back : Text, Blank.IsSpace front → Blank.IsSpace back →
      codec.decodeHex (front ++ text ++ back) = codec.decodeHex text) ∧
    (∀ text : Text, (∃ front back, Blank.IsSpace front ∧ Blank.IsSpace back ∧
        front ++ Blank.trim text ++ back = text ∧ Blank.IsBare (Blank.trim text)) ∧
      ((∃ fault, codec.decodeHex text = .error (.hex fault)) ↔
        (Utf8.encode (Blank.trim text)).length % 2 = 1 ∨
          ∃ byte ∈ Utf8.encode (Blank.trim text), ¬Hex.IsDigit byte) ∧
      ∀ fault, codec.decodeHex text = .error (.hex fault) ↔
        Hex.Refusal (Utf8.encode (Blank.trim text)) fault) ∧
    ∀ attestation : Attestation,
      ((∃ text, encodeHex attestation = .ok text) ↔ ∃ record, encode attestation = .ok record) ∧
      ∀ text, encodeHex attestation = .ok text →
        (∀ digit ∈ text, '0' ≤ digit ∧ digit ≤ '9' ∨ 'a' ≤ digit ∧ digit ≤ 'f') ∧
        ∃ record, encode attestation = .ok record ∧
          codec.decodeHex text = codec.decode record := by
  have lower : ∀ value < 16, '0' ≤ Nat.digitChar value ∧ Nat.digitChar value ≤ '9' ∨
      'a' ≤ Nat.digitChar value ∧ Nat.digitChar value ≤ 'f' := by decide
  refine ⟨fun _ _ _ _ h hFront hBack => decodeHex_of_spells hFront hBack h, ?_, ?_, ?_⟩
  · intro text front back hFront hBack
    rw [decodeHex, Blank.trim_append hFront hBack]
    rfl
  · intro text
    refine ⟨Blank.exists_trim text, ?_, fun fault => decodeHex_eq_hex_iff⟩
    rw [← Hex.exists_refusal_iff]
    exact exists_congr fun fault => decodeHex_eq_hex_iff
  · intro attestation
    constructor
    · simp only [encodeHex_eq_ok_iff, exists_comm, exists_and_left, exists_eq', and_true]
    · intro text hText
      rcases encodeHex_eq_ok_iff.mp hText with ⟨record, hRecord, rfl⟩
      refine ⟨?_, record, hRecord, ?_⟩
      · intro digit member
        rcases Hex.exists_digitChar_of_mem_encode member with ⟨value, hValue, rfl⟩
        exact lower value hValue
      · have hDecode : codec.decodeHex ([] ++ Hex.encode record ++ []) = codec.decode record :=
          decodeHex_of_spells nofun nofun (Hex.spells_encode record)
        rw [List.nil_append, List.append_nil] at hDecode
        exact hDecode

theorem hex_forms_agree_mixed_case :
    let bytes : Bytes := [0x05, 0x88, 0x96, 0x0D, 0x73, 0xD7, 0x19, 0x01, 0x02, 0xE8, 0x07]
    let digits : Text := "0588960d73D7190102e807".toList
    let written : Text := "0588960d73d7190102e807".toList
    let front : Text := ['\u3000', '\t']
    let back : Text := ['\u0085', '\n']
    Hex.Spells digits bytes ∧ Blank.IsSpace front ∧ Blank.IsSpace back ∧
    ({} : Codec).decodeHex (front ++ digits ++ back) = ({} : Codec).decode bytes ∧
    ({} : Codec).decodeHex (front ++ ['x'] ++ back) = ({} : Codec).decodeHex ['x'] ∧
    encodeHex (.bitcoin 1000) = .ok written ∧
    (∀ digit ∈ written, '0' ≤ digit ∧ digit ≤ '9' ∨ 'a' ≤ digit ∧ digit ≤ 'f') ∧
    ∃ record, encode (.bitcoin 1000) = .ok record ∧
      ({} : Codec).decodeHex written = ({} : Codec).decode record := by
  intro bytes digits written front back
  have hSpells : Hex.Spells digits bytes := rfl
  have hFront : Blank.IsSpace front := by decide
  have hBack : Blank.IsSpace back := by decide
  have hRecord : encode (.bitcoin 1000) = .ok bytes := by decide +kernel
  have hWritten : encodeHex (.bitcoin 1000) = .ok written :=
    encodeHex_eq_ok_iff.mpr ⟨bytes, hRecord, rfl⟩
  obtain ⟨spelled, surrounded, _, encoded⟩ := hex_forms_agree {}
  exact ⟨hSpells, hFront, hBack, spelled bytes digits front back hSpells hFront hBack,
    surrounded ['x'] front back hFront hBack, hWritten,
    (encoded (.bitcoin 1000)).2 written hWritten⟩

/-- One character of two bytes is an even number of them, and the first of them is no digit. -/
example : Hex.decode ['é'] = .error (.badDigit 0xC3 0) := by decide

end Codec

end Timestamping
