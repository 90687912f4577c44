import Timestamping.Attestation.Display
import Timestamping.Proofs.Json.Number
import Timestamping.Proofs.Record.Grammar
import Timestamping.Proofs.Text.Escape
import Timestamping.Proofs.Utf8.Fault

/-!
The one-line form of an attestation. Main statements: two attestations that are shown alike are
the same, but for URIs that are not both text and have one readable form; and whatever the bytes of
an unknown attestation, its line is printable.
-/

namespace Timestamping

theorem Tag.isPrintable_of_mem_toHex {tag : Tag} {character : Char} (member : character ∈ tag.toHex) :
    Escape.IsPrintable character := by
  rcases Hex.exists_digitChar_of_mem_encode member with ⟨value, hValue, rfl⟩
  exact Escape.isPrintable_digitChar hValue

namespace Attestation

/-- Whether the URI, where there is one, is text. -/
def UriIsText : Attestation → Prop
  | .pending uri => Utf8.IsText uri
  | .bitcoin _ => True
  | .unknown _ _ => True

theorem display_pending (uri : Bytes) : (pending uri).display =
    "VERIFY PendingAttestation(url=".toList ++ Utf8.readable uri ++ [')'] :=
  rfl

theorem display_unknown (tag : Tag) (payload : Bytes) : (unknown tag payload).display =
    "UnknownAttestation(tag=".toList ++ tag.toHex ++ ", bytes=\"".toList ++
      Escape.bytes payload ++ "\")".toList :=
  rfl

/-- The eighth character of the line, which tells the forms apart. -/
def letter : Attestation → Char
  | .pending _ => 'P'
  | .bitcoin _ => 'B'
  | .unknown _ _ => 'A'

theorem getElem?_display (attestation : Attestation) :
    attestation.display[7]? = some attestation.letter := by
  cases attestation with
  | pending uri => rfl
  | bitcoin height => rfl
  | unknown tag payload => rfl

theorem letter_eq_of_display_eq {first second : Attestation} (h : first.display = second.display) :
    first.letter = second.letter := by
  apply Option.some.inj
  rw [← getElem?_display, ← getElem?_display, h]

theorem display_pending_inj {first second : Bytes}
    (h : (pending first).display = (pending second).display) :
    Utf8.readable first = Utf8.readable second :=
  List.append_cancel_left (List.append_cancel_right h)

theorem display_bitcoin_inj {first second : UInt64}
    (h : (bitcoin first).display = (bitcoin second).display) : first = second := by
  have digits : Nat.toDigits 10 first.toNat = Nat.toDigits 10 second.toNat :=
    List.append_cancel_left (List.append_cancel_right h)
  have value := congrArg Number.ofDigits digits
  rw [Number.ofDigits_toDigits, Number.ofDigits_toDigits] at value
  exact UInt64.toNat_inj.mp value

/-- The digits of all tags are of one length, so the payload starts at the same place. -/
theorem display_unknown_inj {first second : Tag} {payload other : Bytes}
    (h : (unknown first payload).display = (unknown second other).display) :
    first = second ∧ payload = other := by
  have sameLength : first.toHex.length = second.toHex.length := by
    rw [Tag.toHex, Tag.toHex, Hex.length_encode, Hex.length_encode, first.bytesLength,
      second.bytesLength]
  simp only [display_unknown, List.append_assoc] at h
  obtain ⟨hTag, hBehind⟩ := List.append_inj (List.append_cancel_left h) sameLength
  obtain ⟨hPayload, -⟩ := Escape.bytes_append_quote_inj (List.append_cancel_left hBehind)
  exact ⟨Tag.bytes_inj.mp (Hex.encode_injective hTag), hPayload⟩

theorem display_eq_iff {first second : Attestation} : first.display = second.display ↔
    first = second ∨ ∃ uri other, first = .pending uri ∧ second = .pending other ∧
      Utf8.readable uri = Utf8.readable other := by
  constructor
  · intro h
    have form := letter_eq_of_display_eq h
    cases first with
    | pending uri =>
        cases second with
        | pending other => exact .inr ⟨uri, other, rfl, rfl, display_pending_inj h⟩
        | bitcoin height => cases form
        | unknown tag payload => cases form
    | bitcoin height =>
        cases second with
        | pending other => cases form
        | bitcoin other => exact .inl (congrArg bitcoin (display_bitcoin_inj h))
        | unknown tag payload => cases form
    | unknown tag payload =>
        cases second with
        | pending other => cases form
        | bitcoin other => cases form
        | unknown other second =>
            obtain ⟨rfl, rfl⟩ := display_unknown_inj h
            exact .inl rfl
  · rintro (rfl | ⟨uri, other, rfl, rfl, same⟩)
    · rfl
    · rw [display_pending, display_pending, same]

theorem isPrintable_of_mem_display_unknown {tag : Tag} {payload : Bytes} {character : Char}
    (member : character ∈ (unknown tag payload).display) : Escape.IsPrintable character := by
  have opening : ∀ character ∈ "UnknownAttestation(tag=".toList, Escape.IsPrintable character :=
    Escape.isPrintable_of_all (by decide)
  have middle : ∀ character ∈ ", bytes=\"".toList, Escape.IsPrintable character :=
    Escape.isPrintable_of_all (by decide)
  have closing : ∀ character ∈ "\")".toList, Escape.IsPrintable character :=
    Escape.isPrintable_of_all (by decide)
  simp only [display_unknown, List.mem_append] at member
  rcases member with (((hOpening | hTag) | hMiddle) | hPayload) | hClosing
  · exact opening character hOpening
  · exact Tag.isPrintable_of_mem_toHex hTag
  · exact middle character hMiddle
  · exact Escape.isPrintable_of_mem_bytes hPayload
  · exact closing character hClosing

/-- A line tells which attestation it shows, and the line of an unknown one can be printed. -/
theorem display_identifies :
    (∀ first second : Attestation, first.UriIsText → second.UriIsText →
      first.display = second.display → first = second) ∧
    ∀ tag payload, ∀ character ∈ (unknown tag payload).display, Escape.IsPrintable character := by
  refine ⟨?_, fun tag payload character => isPrintable_of_mem_display_unknown⟩
  intro first second hFirst hSecond h
  rcases display_eq_iff.mp h with same | ⟨uri, other, rfl, rfl, same⟩
  · exact same
  · have hBytes : uri = other := by
      rw [← Utf8.encode_readable_eq_iff.mpr hFirst, same, Utf8.encode_readable_eq_iff.mpr hSecond]
    rw [hBytes]

/-- A URI that ends like a line, given as a text and as its bytes. -/
theorem display_identifies_parenthesis :
    (ofUri ['é', ')']).UriIsText ∧ (pending [0xC3, 0xA9, 0x29]).UriIsText ∧
      (ofUri ['é', ')']).display = (pending [0xC3, 0xA9, 0x29]).display ∧
      ofUri ['é', ')'] = pending [0xC3, 0xA9, 0x29] ∧
      ∀ character ∈ (unknown .bitcoin [0x22, 0x29, 0x0A, 0xFF]).display,
        Escape.IsPrintable character := by
  have given : (ofUri ['é', ')']).UriIsText := ⟨_, rfl⟩
  have spelled : (pending [0xC3, 0xA9, 0x29]).UriIsText := ⟨['é', ')'], by decide⟩
  have alike : (ofUri ['é', ')']).display = (pending [0xC3, 0xA9, 0x29]).display := by
    rw [ofUri, show Utf8.encode ['é', ')'] = [0xC3, 0xA9, 0x29] by decide]
  exact ⟨given, spelled, alike, display_identifies.1 _ _ given spelled alike,
    display_identifies.2 .bitcoin _⟩

/-- Two URIs that are no text are shown like one that is. -/
example : (pending [0xFF]).display = (pending [0xFE]).display ∧
    (pending [0xFF]).display = (pending [0xEF, 0xBF, 0xBD]).display := by
  decide +kernel

end Attestation

end Timestamping
