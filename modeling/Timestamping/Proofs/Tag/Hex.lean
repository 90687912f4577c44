import Timestamping.Proofs.Text.Hex
import Timestamping.Tag

/-!
Tags as text. A tag is sixteen digits and nothing around them; it is written in lower case and read
in either. Main statement: every other text is refused as a tag, and only a text that is hexadecimal
is refused for its length.
-/

namespace Timestamping.Tag

variable {text : Text} {tag : Tag}

/-- Why a text is no tag. The bytes that it spells are only counted when all of its own are digits
and none of them is left without a partner. -/
inductive TextRefusal : Text → TagFault → Prop
  | hex {text : Text} {fault : Hex.Fault} : Hex.Refusal (Utf8.encode text) fault →
      TextRefusal text (.hex fault)
  | wrongLength {text : Text} : (Utf8.encode text).length % 2 = 0 →
      (∀ byte ∈ Utf8.encode text, Hex.IsDigit byte) → (Utf8.encode text).length / 2 ≠ size →
      TextRefusal text (.wrongLength size ((Utf8.encode text).length / 2))

/-! ### From bytes -/

theorem ofBytes_eq_ok_iff {bytes : Bytes} : ofBytes bytes = .ok tag ↔ tag.bytes = bytes := by
  rw [ofBytes]
  constructor
  · intro h
    split at h
    · cases h
      rfl
    · cases h
  · rintro rfl
    exact dif_pos tag.bytesLength

theorem ofBytes_eq_error_iff {bytes : Bytes} {error : DecodeError} :
    ofBytes bytes = .error error ↔
      bytes.length ≠ size ∧ error = .invalidTag (.wrongLength size bytes.length) := by
  rw [ofBytes]
  by_cases fits : bytes.length = size
  · rw [dif_pos fits]
    exact iff_of_false nofun fun h => h.1 fits
  · rw [dif_neg fits, and_iff_right fits]
    exact (Except.error.injEq _ _).to_iff.trans eq_comm

/-! ### From text -/

theorem ofHex_of_spells {bytes : Bytes} (h : Hex.Spells text bytes) :
    ofHex text = ofBytes bytes := by
  rw [ofHex, h.decode_eq]
  rfl

theorem ofHex_of_refused {fault : Hex.Fault} (h : Hex.Refusal (Utf8.encode text) fault) :
    ofHex text = .error (.invalidTag (.hex fault)) := by
  rw [ofHex, Hex.decode_eq_error_iff.mpr h]
  rfl

theorem ofHex_eq_ok_iff : ofHex text = .ok tag ↔ Hex.Spells text tag.bytes := by
  constructor
  · intro h
    rcases Hex.spells_or_refused text with ⟨bytes, hBytes⟩ | ⟨fault, refused⟩
    · rw [ofHex_of_spells hBytes] at h
      rw [ofBytes_eq_ok_iff.mp h]
      exact hBytes
    · rw [ofHex_of_refused refused] at h
      cases h
  · intro h
    rw [ofHex_of_spells h]
    exact ofBytes_eq_ok_iff.mpr rfl

theorem exists_ofHex_eq_ok_iff : (∃ tag, ofHex text = .ok tag) ↔
    text.length = 16 ∧ ∀ character ∈ text, Hex.IsDigitChar character := by
  simp only [ofHex_eq_ok_iff]
  constructor
  · rintro ⟨tag, h⟩
    have hLength := h.length_eq
    rw [tag.bytesLength] at hLength
    exact ⟨hLength, h.isDigitChar⟩
  · rintro ⟨hLength, digits⟩
    rcases Hex.exists_spells (by omega) digits with ⟨bytes, h⟩
    have hBytes := h.length_eq
    exact ⟨⟨bytes, by omega⟩, h⟩

/-! ### Refusals -/

theorem textRefusal_iff_of_spells {bytes : Bytes} {fault : TagFault} (h : Hex.Spells text bytes) :
    TextRefusal text fault ↔ bytes.length ≠ size ∧ fault = .wrongLength size bytes.length := by
  have hLength : (Utf8.encode text).length = 2 * bytes.length :=
    (Hex.length_utf8_of_isDigitChar h.isDigitChar).trans h.length_eq
  have hHalf : (Utf8.encode text).length / 2 = bytes.length := by omega
  constructor
  · intro refused
    cases refused with
    | hex notHex =>
        have hDecode := Hex.decode_eq_error_iff.mpr notHex
        rw [h.decode_eq] at hDecode
        cases hDecode
    | wrongLength _ _ other =>
        rw [hHalf] at other ⊢
        exact ⟨other, rfl⟩
  · rintro ⟨other, rfl⟩
    rw [← hHalf] at other ⊢
    exact .wrongLength (by omega) (Hex.forall_mem_utf8_iff.mpr h.isDigitChar) other

theorem textRefusal_iff_of_refused {cause : Hex.Fault} {fault : TagFault}
    (h : Hex.Refusal (Utf8.encode text) cause) : TextRefusal text fault ↔ fault = .hex cause := by
  constructor
  · intro refused
    cases refused with
    | hex other => rw [Hex.fault_unique other h]
    | wrongLength even digits _ =>
        rcases Hex.exists_refusal_iff.mp ⟨cause, h⟩ with odd | ⟨byte, member, hByte⟩
        · omega
        · exact absurd (digits byte member) hByte
  · rintro rfl
    exact .hex h

theorem ofHex_eq_error_iff {error : DecodeError} : ofHex text = .error error ↔
    ∃ fault, TextRefusal text fault ∧ error = .invalidTag fault := by
  rcases Hex.spells_or_refused text with ⟨bytes, h⟩ | ⟨cause, h⟩
  · simp only [ofHex_of_spells h, ofBytes_eq_error_iff, textRefusal_iff_of_spells h, and_assoc,
      exists_and_left, exists_eq_left]
  · simp only [ofHex_of_refused h, textRefusal_iff_of_refused h, exists_eq_left,
      Except.error.injEq, eq_comm]

/-- The texts of tags are sixteen digits each, and a tag is told by its text in lower case. Every
other text is refused as a tag: for an odd number of bytes, or else for the first byte that is no
digit, or else for the number of bytes that it spells. -/
theorem ofHex_decides :
    (∀ text, (∃ tag, ofHex text = .ok tag) ↔
      text.length = 16 ∧ ∀ character ∈ text, Hex.IsDigitChar character) ∧
    (∀ text tag, ofHex text = .ok tag ↔ tag.toHex = text.map Char.toLower) ∧
    (∀ tag, ofHex tag.toHex = .ok tag) ∧
    (∀ text error, ofHex text = .error error ↔
      ∃ fault, TextRefusal text fault ∧ error = .invalidTag fault) ∧
    ∀ count, TagFault.message (.wrongLength size count) = s!"expected 8 bytes, got {count}" := by
  refine ⟨fun _ => exists_ofHex_eq_ok_iff, ?_, ?_, fun _ _ => ofHex_eq_error_iff, fun _ => rfl⟩
  · intro text tag
    exact ofHex_eq_ok_iff.trans eq_comm
  · intro tag
    exact ofHex_eq_ok_iff.mpr (Hex.spells_encode tag.bytes)

/-- Sixteen characters are seventeen bytes here, and their number is looked at first. -/
example : ofHex "0588960d73d7190é".toList = .error (.invalidTag (.hex .oddLength)) := by decide

end Timestamping.Tag
