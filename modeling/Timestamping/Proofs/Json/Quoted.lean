import Timestamping.Json.Quoted

/-!
String literals of JSON read back. Every list of units is read from its literal, those too that are
no text; and every text is read from its own units.
-/

namespace Timestamping

namespace Utf16

theorem isHigh_iff {unit : UInt16} :
    isHigh unit = true ↔ 0xD800 ≤ unit.toNat ∧ unit.toNat < 0xDC00 := by
  simp [isHigh, UInt16.le_iff_toNat_le, UInt16.lt_iff_toNat_lt]

theorem isLow_iff {unit : UInt16} :
    isLow unit = true ↔ 0xDC00 ≤ unit.toNat ∧ unit.toNat < 0xE000 := by
  simp [isLow, UInt16.le_iff_toNat_le, UInt16.lt_iff_toNat_lt]

theorem decode?_single {unit : UInt16} (hHigh : ¬isHigh unit = true) (hLow : ¬isLow unit = true)
    (rest : List UInt16) :
    decode? (unit :: rest) = (decode? rest).map (Char.ofNat unit.toNat :: ·) := by
  cases rest with
  | nil => simp [decode?, hHigh, hLow]
  | cons next rest => simp [decode?, hHigh, hLow]

theorem decode?_pair {high low : UInt16} (hHigh : isHigh high = true) (hLow : isLow low = true)
    (rest : List UInt16) :
    decode? (high :: low :: rest) = (decode? rest).map (join high low :: ·) := by
  simp [decode?, hHigh, hLow]

theorem decode?_encodeChar (character : Char) (rest : List UInt16) :
    decode? (encodeChar character ++ rest) = (decode? rest).map (character :: ·) := by
  have valid : character.toNat < 0xD800 ∨ 0xDFFF < character.toNat ∧ character.toNat < 0x110000 :=
    character.valid
  have same := Char.ofNat_toNat character
  rw [encodeChar]
  split
  case isTrue small =>
    have hUnit : (UInt16.ofNat character.toNat).toNat = character.toNat :=
      UInt16.toNat_ofNat_of_lt' small
    have notHigh : ¬isHigh (UInt16.ofNat character.toNat) = true := by
      rw [isHigh_iff, hUnit]
      omega
    have notLow : ¬isLow (UInt16.ofNat character.toNat) = true := by
      rw [isLow_iff, hUnit]
      omega
    rw [List.singleton_append, decode?_single notHigh notLow, hUnit, same]
  case isFalse large =>
    have hHigh : (UInt16.ofNat (0xD800 + (character.toNat - 0x10000) / 0x400)).toNat =
        0xD800 + (character.toNat - 0x10000) / 0x400 :=
      UInt16.toNat_ofNat_of_lt' (show _ < 0x10000 by omega)
    have hLow : (UInt16.ofNat (0xDC00 + (character.toNat - 0x10000) % 0x400)).toNat =
        0xDC00 + (character.toNat - 0x10000) % 0x400 :=
      UInt16.toNat_ofNat_of_lt' (show _ < 0x10000 by omega)
    have joined : 0x10000 + (0xD800 + (character.toNat - 0x10000) / 0x400 - 0xD800) * 0x400 +
        (0xDC00 + (character.toNat - 0x10000) % 0x400 - 0xDC00) = character.toNat := by omega
    rw [List.cons_append, List.singleton_append, decode?_pair, join, hHigh, hLow, joined, same]
    · rw [isHigh_iff, hHigh]
      omega
    · rw [isLow_iff, hLow]
      omega

theorem decode?_encode (text : Text) : decode? (encode text) = some text := by
  induction text with
  | nil => rfl
  | cons character text ih =>
      rw [encode, List.flatMap_cons, decode?_encodeChar]
      change (decode? (encode text)).map _ = _
      rw [ih, Option.map_some]

theorem encode_injective {first second : Text} (h : encode first = encode second) :
    first = second := by
  have same := congrArg decode? h
  rw [decode?_encode, decode?_encode] at same
  exact Option.some.inj same

@[simp] theorem encode_inj {first second : Text} : encode first = encode second ↔ first = second :=
  ⟨encode_injective, congrArg encode⟩

@[simp] theorem isText_encode (text : Text) : isText (encode text) = true := by
  rw [isText, decode?_encode, Option.isSome_some]

end Utf16

/-! ### Literals -/

theorem Hex.digitValue?_digitChar {digit : Nat} (h : digit < 16) :
    digitValue? (Nat.digitChar digit) = some digit := by
  revert digit
  decide

namespace Quoted

/-- Printable ASCII other than the quote and the backslash stands for itself in a literal. -/
def IsBare (character : Char) : Prop :=
  0x20 ≤ character.toNat ∧ character.toNat ≤ 0x7E ∧ character.toNat ≠ 0x22 ∧ character.toNat ≠ 0x5C

instance (character : Char) : Decidable (IsBare character) :=
  inferInstanceAs (Decidable (_ ∧ _ ∧ _ ∧ _))

theorem IsBare.toNat_lt {character : Char} (h : IsBare character) : character.toNat < 0x10000 :=
  Nat.lt_of_le_of_lt h.2.1 (by decide)

theorem IsBare.encodeChar {character : Char} (h : IsBare character) :
    Utf16.encodeChar character = [UInt16.ofNat character.toNat] :=
  if_pos h.toNat_lt

theorem IsBare.renderUnit {character : Char} (h : IsBare character) :
    renderUnit (UInt16.ofNat character.toNat) = [character] := by
  have hUnit : (UInt16.ofNat character.toNat).toNat = character.toNat :=
    UInt16.toNat_ofNat_of_lt' h.toNat_lt
  rw [Quoted.renderUnit, hUnit]
  exact (if_pos h).trans (congrArg ([·]) (Char.ofNat_toNat character))

theorem IsBare.body? {character : Char} (h : IsBare character) (rest : Text) :
    body? (character :: rest) =
      (body? rest).map fun result => (UInt16.ofNat character.toNat :: result.1, result.2) := by
  have notQuote : character ≠ '"' := by
    rintro rfl
    exact absurd h (by decide)
  have notBackslash : character ≠ '\\' := by
    rintro rfl
    exact absurd h (by decide)
  have allowed : ¬(character.toNat < 0x20 ∨ character = '\\') :=
    not_or.mpr ⟨Nat.not_lt.mpr h.1, notBackslash⟩
  rw [Quoted.body?, h.encodeChar, if_neg allowed]
  · cases Quoted.body? rest with
    | none => rfl
    | some result => rfl
  · exact notQuote
  · exact fun _ _ _ _ _ same _ => notBackslash same
  · exact fun _ _ same _ => notBackslash same

theorem body?_escape {first second third fourth : Nat} (hFirst : first < 16)
    (hSecond : second < 16) (hThird : third < 16) (hFourth : fourth < 16) (rest : Text) :
    body? (['\\', 'u', Nat.digitChar first, Nat.digitChar second, Nat.digitChar third,
      Nat.digitChar fourth] ++ rest) =
      (body? rest).map fun result =>
        (UInt16.ofNat (4096 * first + 256 * second + 16 * third + fourth) :: result.1,
          result.2) := by
  have hUnit : unit? (Nat.digitChar first) (Nat.digitChar second) (Nat.digitChar third)
      (Nat.digitChar fourth) =
        some (UInt16.ofNat (4096 * first + 256 * second + 16 * third + fourth)) := by
    simp only [unit?, Hex.digitValue?_digitChar hFirst, Hex.digitValue?_digitChar hSecond,
      Hex.digitValue?_digitChar hThird, Hex.digitValue?_digitChar hFourth, Option.bind_eq_bind,
      Option.bind_some, Option.pure_def]
  simp only [List.cons_append, List.nil_append]
  rw [Quoted.body?, hUnit]
  cases Quoted.body? rest with
  | none => rfl
  | some result => rfl

theorem body?_renderUnit (unit : UInt16) (rest : Text) :
    body? (renderUnit unit ++ rest) =
      (body? rest).map fun result => (unit :: result.1, result.2) := by
  have small : unit.toNat < 0x10000 := unit.toNat_lt
  rw [renderUnit]
  split
  case isTrue h =>
    have hValue : (Char.ofNat unit.toNat).toNat = unit.toNat := by
      rw [Char.ofNat, dif_pos (show unit.toNat.isValidChar from .inl (by omega))]
      rfl
    have isBare : IsBare (Char.ofNat unit.toNat) := by
      rw [IsBare, hValue]
      exact h
    have hBody := isBare.body? rest
    rw [hValue, UInt16.ofNat_toNat] at hBody
    exact hBody
  case isFalse h =>
    have joined : 4096 * (unit.toNat / 4096) + 256 * (unit.toNat / 256 % 16) +
        16 * (unit.toNat / 16 % 16) + unit.toNat % 16 = unit.toNat := by omega
    rw [body?_escape (by omega) (by omega) (by omega) (by omega), joined, UInt16.ofNat_toNat]

theorem body?_render (units : List UInt16) (rest : Text) :
    body? (units.flatMap renderUnit ++ '"' :: rest) = some (units, rest) := by
  induction units with
  | nil => rw [List.flatMap_nil, List.nil_append, Quoted.body?]
  | cons unit units ih => rw [List.flatMap_cons, List.append_assoc, body?_renderUnit, ih]; rfl

theorem flatMap_renderUnit_encode {text : Text} (h : ∀ character ∈ text, IsBare character) :
    (Utf16.encode text).flatMap renderUnit = text := by
  induction text with
  | nil => rfl
  | cons character text ih =>
      obtain ⟨hFirst, hRest⟩ := List.forall_mem_cons.mp h
      rw [Utf16.encode, List.flatMap_cons, hFirst.encodeChar, List.singleton_append,
        List.flatMap_cons, hFirst.renderUnit]
      exact congrArg (character :: ·) (ih hRest)

/-- A text that needs no escape stands as it is between the quotes. -/
theorem render_encode_of_isBare {text : Text} (h : ∀ character ∈ text, IsBare character) :
    render (Utf16.encode text) = '"' :: text ++ ['"'] := by
  rw [render, flatMap_renderUnit_encode h]

end Quoted

end Timestamping
