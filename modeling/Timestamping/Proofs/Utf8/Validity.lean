import Mathlib.Data.List.Forall2
import Timestamping.Text.Utf8

/-!
Which byte strings are text. Main statement: `fault?` finds nothing exactly in the byte strings that
are the UTF-8 form of some text, so no longer form, no surrogate and nothing above U+10FFFF passes.
-/

namespace Timestamping.Utf8

/-- The UTF-8 form of some text. -/
def IsText (bytes : Bytes) : Prop :=
  ∃ text, encode text = bytes

/-! ### One character -/

/-- The bytes behind a first byte lie in the ranges that it asks for, one in each. -/
abbrev Follow : List ByteRange → Bytes → Prop :=
  List.Forall₂ fun range byte => range.contains byte = true

def join (value : Nat) (tail : Bytes) : Nat :=
  tail.foldl (fun value byte => 64 * value + byte.toNat % 64) value

theorem complete_eq_scalar_iff {value : Nat} {taken : Bytes} {following : List ByteRange}
    {input rest : Bytes} {character : Char} :
    complete value taken following input = (.scalar character, rest) ↔
      ∃ tail, Follow following tail ∧ character = Char.ofNat (join value tail) ∧
        tail ++ rest = input := by
  induction following generalizing value taken input with
  | nil =>
      rw [complete]
      constructor
      · intro h
        cases h
        exact ⟨[], .nil, rfl, rfl⟩
      · intro h
        obtain ⟨tail, hTail, rfl, rfl⟩ := h
        cases hTail
        rfl
  | cons range following ih =>
      cases input with
      | nil =>
          rw [complete]
          constructor
          · intro h
            cases h
          · intro h
            obtain ⟨tail, hTail, _, hInput⟩ := h
            cases hTail with
            | cons hByte hTail => cases hInput
      | cons byte input =>
          rw [complete]
          constructor
          · intro h
            split at h
            · rename_i inRange
              obtain ⟨tail, hTail, hCharacter, hInput⟩ := ih.mp h
              exact ⟨byte :: tail, .cons inRange hTail, hCharacter, congrArg (byte :: ·) hInput⟩
            · cases h
          · intro h
            obtain ⟨tail, hTail, hCharacter, hInput⟩ := h
            cases hTail with
            | @cons _ first _ tail inRange hTail =>
                obtain ⟨rfl, rfl⟩ := List.cons.inj hInput
                rw [if_pos inRange]
                exact ih.mpr ⟨tail, hTail, hCharacter, rfl⟩

theorem ByteRange.contains_iff {low high byte : UInt8} :
    (ByteRange.mk low high).contains byte = true ↔
      low.toNat ≤ byte.toNat ∧ byte.toNat ≤ high.toNat := by
  simp only [contains, Bool.and_eq_true, decide_eq_true_eq, UInt8.le_iff_toNat_le]

def secondOfThree (first : UInt8) : ByteRange :=
  if first = 0xE0 then ⟨0xA0, 0xBF⟩ else if first = 0xED then ⟨0x80, 0x9F⟩ else continuation

def secondOfFour (first : UInt8) : ByteRange :=
  if first = 0xF0 then ⟨0x90, 0xBF⟩ else if first = 0xF4 then ⟨0x80, 0x8F⟩ else continuation

theorem continuation_contains_iff {byte : UInt8} :
    continuation.contains byte = true ↔ 0x80 ≤ byte.toNat ∧ byte.toNat ≤ 0xBF :=
  ByteRange.contains_iff

theorem secondOfThree_contains_iff {first second : UInt8} :
    (secondOfThree first).contains second = true ↔
      0x80 ≤ second.toNat ∧ second.toNat ≤ 0xBF ∧ (first.toNat = 0xE0 → 0xA0 ≤ second.toNat) ∧
        (first.toNat = 0xED → second.toNat ≤ 0x9F) := by
  have e0 : first = 0xE0 ↔ first.toNat = 0xE0 := UInt8.toNat_inj.symm
  have ed : first = 0xED ↔ first.toNat = 0xED := UInt8.toNat_inj.symm
  simp only [secondOfThree, e0, ed]
  split
  · rw [ByteRange.contains_iff]
    change 0xA0 ≤ second.toNat ∧ second.toNat ≤ 0xBF ↔ _
    omega
  · split
    · rw [ByteRange.contains_iff]
      change 0x80 ≤ second.toNat ∧ second.toNat ≤ 0x9F ↔ _
      omega
    · rw [continuation_contains_iff]
      omega

theorem secondOfFour_contains_iff {first second : UInt8} :
    (secondOfFour first).contains second = true ↔
      0x80 ≤ second.toNat ∧ second.toNat ≤ 0xBF ∧ (first.toNat = 0xF0 → 0x90 ≤ second.toNat) ∧
        (first.toNat = 0xF4 → second.toNat ≤ 0x8F) := by
  have f0 : first = 0xF0 ↔ first.toNat = 0xF0 := UInt8.toNat_inj.symm
  have f4 : first = 0xF4 ↔ first.toNat = 0xF4 := UInt8.toNat_inj.symm
  simp only [secondOfFour, f0, f4]
  split
  · rw [ByteRange.contains_iff]
    change 0x90 ≤ second.toNat ∧ second.toNat ≤ 0xBF ↔ _
    omega
  · split
    · rw [ByteRange.contains_iff]
      change 0x80 ≤ second.toNat ∧ second.toNat ≤ 0x8F ↔ _
      omega
    · rw [continuation_contains_iff]
      omega

theorem lead?_eq (byte : UInt8) : lead? byte =
    if byte.toNat < 0x80 then some ⟨byte.toNat, []⟩
    else if byte.toNat < 0xC2 then none
    else if byte.toNat < 0xE0 then some ⟨byte.toNat - 0xC0, [continuation]⟩
    else if byte.toNat < 0xF0 then
      some ⟨byte.toNat - 0xE0, [secondOfThree byte, continuation]⟩
    else if byte.toNat < 0xF5 then
      some ⟨byte.toNat - 0xF0, [secondOfFour byte, continuation, continuation]⟩
    else none := by
  simp only [lead?, UInt8.lt_iff_toNat_lt]
  rfl

/-! ### The bytes of a value -/

/-- The first byte and the others of the one form that a scalar value has. -/
inductive Form : UInt8 → Bytes → Nat → Prop
  | one {first : UInt8} {value : Nat} : value ≤ 0x7F → first.toNat = value → Form first [] value
  | two {first second : UInt8} {value : Nat} : 0x80 ≤ value → value ≤ 0x7FF →
      first.toNat = value / 64 + 0xC0 → second.toNat = value % 64 + 0x80 →
      Form first [second] value
  | three {first second third : UInt8} {value : Nat} : 0x800 ≤ value → value ≤ 0xFFFF →
      ¬(0xD800 ≤ value ∧ value ≤ 0xDFFF) → first.toNat = value / 4096 + 0xE0 →
      second.toNat = value / 64 % 64 + 0x80 → third.toNat = value % 64 + 0x80 →
      Form first [second, third] value
  | four {first second third fourth : UInt8} {value : Nat} : 0x10000 ≤ value → value ≤ 0x10FFFF →
      first.toNat = value / 262144 + 0xF0 → second.toNat = value / 4096 % 64 + 0x80 →
      third.toNat = value / 64 % 64 + 0x80 → fourth.toNat = value % 64 + 0x80 →
      Form first [second, third, fourth] value

private theorem toNat_ofNat {value : Nat} (valid : value.isValidChar) :
    (Char.ofNat value).val.toNat = value := by
  rw [Char.ofNat, dif_pos valid]
  rfl

private theorem ofNat_eq {byte : UInt8} {value : Nat} (h : byte.toNat = value) :
    UInt8.ofNat value = byte := by
  rw [← h, UInt8.ofNat_toNat]

theorem Form.encodeChar {first : UInt8} {tail : Bytes} {value : Nat} (h : Form first tail value) :
    String.utf8EncodeChar (Char.ofNat value) = first :: tail := by
  cases h with
  | one high hFirst =>
      rw [String.utf8EncodeChar, toNat_ofNat (.inl (by omega)), if_pos high, ofNat_eq hFirst]
  | two low high hFirst hSecond =>
      rw [String.utf8EncodeChar, toNat_ofNat (.inl (by omega)), if_neg (by omega), if_pos high,
        ofNat_eq (hFirst.trans (by omega)), ofNat_eq hSecond]
  | three low high noSurrogate hFirst hSecond hThird =>
      have valid : value.isValidChar := by
        unfold Nat.isValidChar
        omega
      rw [String.utf8EncodeChar, toNat_ofNat valid, if_neg (by omega), if_neg (by omega),
        if_pos high, ofNat_eq (hFirst.trans (by omega)), ofNat_eq hSecond, ofNat_eq hThird]
  | four low high hFirst hSecond hThird hFourth =>
      have valid : value.isValidChar := .inr ⟨by omega, by omega⟩
      rw [String.utf8EncodeChar, toNat_ofNat valid, if_neg (by omega), if_neg (by omega),
        if_neg (by omega), ofNat_eq (hFirst.trans (by omega)), ofNat_eq hSecond, ofNat_eq hThird,
        ofNat_eq hFourth]

private theorem toNat_ofNat_add {value : Nat} (h : value < 256) :
    (UInt8.ofNat value).toNat = value := by
  rw [UInt8.toNat_ofNat']
  exact Nat.mod_eq_of_lt h

private theorem exists_form (character : Char) :
    ∃ first tail, Form first tail character.toNat := by
  have valid : character.toNat.isValidChar := character.valid
  unfold Nat.isValidChar at valid
  by_cases one : character.toNat ≤ 0x7F
  · exact ⟨_, _, .one one (toNat_ofNat_add (by omega))⟩
  · by_cases two : character.toNat ≤ 0x7FF
    · exact ⟨_, _, .two (by omega) two (toNat_ofNat_add (by omega)) (toNat_ofNat_add (by omega))⟩
    · by_cases three : character.toNat ≤ 0xFFFF
      · exact ⟨_, _, .three (by omega) three (by omega) (toNat_ofNat_add (by omega))
          (toNat_ofNat_add (by omega)) (toNat_ofNat_add (by omega))⟩
      · exact ⟨_, _, .four (by omega) (by omega) (toNat_ofNat_add (by omega))
          (toNat_ofNat_add (by omega)) (toNat_ofNat_add (by omega)) (toNat_ofNat_add (by omega))⟩

theorem exists_encodeChar (character : Char) : ∃ first tail,
    Form first tail character.toNat ∧ String.utf8EncodeChar character = first :: tail := by
  rcases exists_form character with ⟨first, tail, form⟩
  have hBytes := form.encodeChar
  rw [Char.ofNat_toNat] at hBytes
  exact ⟨first, tail, form, hBytes⟩

theorem Form.lead {first : UInt8} {tail : Bytes} {value : Nat} (h : Form first tail value) :
    ∃ lead, lead? first = some lead ∧ Follow lead.following tail ∧ join lead.bits tail = value := by
  rw [lead?_eq]
  cases h with
  | one high hFirst =>
      rw [if_pos (by omega)]
      exact ⟨_, rfl, .nil, hFirst⟩
  | two low high hFirst hSecond =>
      rw [if_neg (by omega), if_neg (by omega), if_pos (by omega)]
      refine ⟨_, rfl, .cons (continuation_contains_iff.mpr (by omega)) .nil, ?_⟩
      simp only [join, List.foldl_cons, List.foldl_nil]
      omega
  | three low high noSurrogate hFirst hSecond hThird =>
      rw [if_neg (by omega), if_neg (by omega), if_neg (by omega), if_pos (by omega)]
      refine ⟨_, rfl, .cons (secondOfThree_contains_iff.mpr (by omega))
        (.cons (continuation_contains_iff.mpr (by omega)) .nil), ?_⟩
      simp only [join, List.foldl_cons, List.foldl_nil]
      omega
  | four low high hFirst hSecond hThird hFourth =>
      rw [if_neg (by omega), if_neg (by omega), if_neg (by omega), if_neg (by omega),
        if_pos (by omega)]
      refine ⟨_, rfl, .cons (secondOfFour_contains_iff.mpr (by omega))
        (.cons (continuation_contains_iff.mpr (by omega))
          (.cons (continuation_contains_iff.mpr (by omega)) .nil)), ?_⟩
      simp only [join, List.foldl_cons, List.foldl_nil]
      omega

theorem form_of_follow {first : UInt8} {tail : Bytes} {lead : Lead}
    (hLead : lead? first = some lead) (hTail : Follow lead.following tail) :
    Form first tail (join lead.bits tail) := by
  rw [lead?_eq] at hLead
  split at hLead
  · rename_i small
    obtain rfl := Option.some.inj hLead
    obtain rfl := List.forall₂_nil_left_iff.mp hTail
    exact .one (Nat.le_of_lt_succ small) rfl
  split at hLead
  · cases hLead
  split at hLead
  · obtain rfl := Option.some.inj hLead
    change Follow [continuation] tail at hTail
    obtain _ | ⟨hSecond, _ | _⟩ := hTail
    rw [continuation_contains_iff] at hSecond
    apply Form.two <;> simp only [join, List.foldl_cons, List.foldl_nil] <;> omega
  split at hLead
  · obtain rfl := Option.some.inj hLead
    change Follow [secondOfThree first, continuation] tail at hTail
    obtain _ | ⟨hSecond, _ | ⟨hThird, _ | _⟩⟩ := hTail
    rw [secondOfThree_contains_iff] at hSecond
    rw [continuation_contains_iff] at hThird
    apply Form.three <;> simp only [join, List.foldl_cons, List.foldl_nil] <;> omega
  split at hLead
  · obtain rfl := Option.some.inj hLead
    change Follow [secondOfFour first, continuation, continuation] tail at hTail
    obtain _ | ⟨hSecond, _ | ⟨hThird, _ | ⟨hFourth, _ | _⟩⟩⟩ := hTail
    rw [secondOfFour_contains_iff] at hSecond
    rw [continuation_contains_iff] at hThird hFourth
    apply Form.four <;> simp only [join, List.foldl_cons, List.foldl_nil] <;> omega
  · cases hLead

/-! ### Segments -/

/-- A segment is a character exactly when the bytes begin with the form of that character. -/
theorem segment_eq_scalar_iff {byte : UInt8} {input rest : Bytes} {character : Char} :
    segment byte input = (.scalar character, rest) ↔
      String.utf8EncodeChar character ++ rest = byte :: input := by
  constructor
  · intro h
    rw [segment] at h
    split at h
    · rename_i lead hLead
      obtain ⟨tail, hTail, rfl, rfl⟩ := complete_eq_scalar_iff.mp h
      rw [(form_of_follow hLead hTail).encodeChar]
      rfl
    · cases h
  · intro h
    rcases exists_encodeChar character with ⟨first, tail, form, hBytes⟩
    rw [hBytes] at h
    obtain ⟨rfl, rfl⟩ := List.cons.inj h
    obtain ⟨lead, hLead, hTail, hValue⟩ := form.lead
    simp only [segment, hLead]
    refine complete_eq_scalar_iff.mpr ⟨tail, hTail, ?_, rfl⟩
    rw [hValue, Char.ofNat_toNat]

/-- Text in front is cut into its characters, whatever stands behind it. -/
theorem segments_encode_append (text : Text) (rest : Bytes) :
    segments (encode text ++ rest) = text.map .scalar ++ segments rest := by
  induction text with
  | nil => rfl
  | cons character text ih =>
      rcases exists_encodeChar character with ⟨first, tail, _, hBytes⟩
      have hEncode : encode (character :: text) ++ rest = first :: (tail ++ (encode text ++ rest)) := by
        rw [encode, List.flatMap_cons, hBytes, List.append_assoc]
        rfl
      have hSegment : segment first (tail ++ (encode text ++ rest)) =
          (.scalar character, encode text ++ rest) := by
        rw [segment_eq_scalar_iff, hBytes]
        rfl
      rw [hEncode, segments, hSegment, ih, List.map_cons, List.cons_append]

theorem segments_encode (text : Text) : segments (encode text) = text.map .scalar := by
  have hSegments := segments_encode_append text []
  rw [List.append_nil, segments, List.append_nil] at hSegments
  exact hSegments

theorem firstFault?_eq_none_iff {index : Nat} {pieces : List Segment} :
    firstFault? index pieces = none ↔ ∃ text : Text, text.map .scalar = pieces := by
  induction pieces generalizing index with
  | nil => exact ⟨fun _ => ⟨[], rfl⟩, fun _ => rfl⟩
  | cons piece pieces ih =>
      cases piece with
      | scalar character =>
          rw [firstFault?, ih]
          constructor
          · intro h
            obtain ⟨text, hText⟩ := h
            exact ⟨character :: text, by rw [List.map_cons, hText]⟩
          · intro h
            obtain ⟨text, hText⟩ := h
            cases text with
            | nil => cases hText
            | cons first text => exact ⟨text, (List.cons.inj hText).2⟩
      | malformed bytes =>
          constructor
          · intro h
            cases h
          · intro h
            obtain ⟨_ | _, hText⟩ := h <;> cases hText
      | incomplete bytes =>
          constructor
          · intro h
            cases h
          · intro h
            obtain ⟨_ | _, hText⟩ := h <;> cases hText

theorem eq_encode_of_segments {bytes : Bytes} {text : Text}
    (h : segments bytes = text.map .scalar) : encode text = bytes := by
  induction text generalizing bytes with
  | nil =>
      cases bytes with
      | nil => rfl
      | cons byte rest =>
          rw [segments] at h
          cases h
  | cons character text ih =>
      cases bytes with
      | nil =>
          rw [segments] at h
          cases h
      | cons byte rest =>
          rw [segments, List.map_cons] at h
          obtain ⟨hFirst, hRest⟩ := List.cons.inj h
          have hSegment : segment byte rest = (.scalar character, (segment byte rest).2) :=
            Prod.ext hFirst rfl
          rw [← segment_eq_scalar_iff.mp hSegment, encode, List.flatMap_cons]
          congr 1
          exact ih hRest

theorem fault?_eq_none_iff {bytes : Bytes} : fault? bytes = none ↔ IsText bytes := by
  rw [fault?, firstFault?_eq_none_iff]
  constructor
  · intro h
    obtain ⟨text, hText⟩ := h
    exact ⟨text, eq_encode_of_segments hText.symm⟩
  · intro h
    obtain ⟨text, rfl⟩ := h
    exact ⟨text, (segments_encode text).symm⟩

theorem not_isText_of_fault? {bytes : Bytes} {fault : Fault} (h : fault? bytes = some fault) :
    ¬IsText bytes := by
  rw [← fault?_eq_none_iff, h]
  exact Option.some_ne_none fault

theorem isValid_iff {bytes : Bytes} : isValid bytes = true ↔ IsText bytes := by
  rw [isValid, Option.isNone_iff_eq_none, fault?_eq_none_iff]

end Timestamping.Utf8
