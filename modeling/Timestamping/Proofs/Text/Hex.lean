import Mathlib.Data.FinEnum
import Timestamping.Proofs.Utf8.Validity
import Timestamping.Text.Hex

/-!
Hexadecimal text. Digits are read in either case and written in lower case; what is no digit is
looked for among the bytes of the text, and only when their number is even. Main statements: some
bytes are read exactly from their spellings, and what is no spelling is refused for its length or
for the first byte that is no digit.
-/

namespace Timestamping.Hex

/-- The bytes of the digits, of which letters may be of either case. -/
def IsDigit (byte : UInt8) : Prop :=
  (0x30 ≤ byte ∧ byte ≤ 0x39) ∨ (0x41 ≤ byte ∧ byte ≤ 0x46) ∨ (0x61 ≤ byte ∧ byte ≤ 0x66)

instance (byte : UInt8) : Decidable (IsDigit byte) :=
  inferInstanceAs (Decidable (_ ∨ _ ∨ _))

/-- The same digits as characters. -/
def IsDigitChar (character : Char) : Prop :=
  ('0' ≤ character ∧ character ≤ '9') ∨ ('A' ≤ character ∧ character ≤ 'F') ∨
    ('a' ≤ character ∧ character ≤ 'f')

instance (character : Char) : Decidable (IsDigitChar character) :=
  inferInstanceAs (Decidable (_ ∨ _ ∨ _))

/-- A text that is the hexadecimal of some bytes but for the case of its letters. -/
def Spells (text : Text) (bytes : Bytes) : Prop :=
  text.map Char.toLower = encode bytes

/-- Why bytes are no digits, or not in pairs. Their number is looked at first. -/
inductive Refusal : Bytes → Fault → Prop
  | oddLength {digits : Bytes} : digits.length % 2 = 1 → Refusal digits .oddLength
  | badDigit {front rest : Bytes} {byte : UInt8} : (front ++ byte :: rest).length % 2 = 0 →
      (∀ digit ∈ front, IsDigit digit) → ¬IsDigit byte →
      Refusal (front ++ byte :: rest) (.badDigit byte front.length)

/-! ### One digit -/

theorem isDigit_iff (byte : UInt8) :
    IsDigit byte ↔ (digitValue? (Char.ofUInt8 byte)).isSome = true := by
  revert byte
  decide +kernel

theorem digitAt_of_isDigit {byte : UInt8} (h : IsDigit byte) :
    ∃ value, ∀ index, digitAt index byte = .ok value := by
  rcases Option.isSome_iff_exists.mp ((isDigit_iff byte).mp h) with ⟨value, hValue⟩
  exact ⟨value, fun index => by rw [digitAt, hValue]⟩

theorem digitAt_of_not_isDigit {byte : UInt8} (h : ¬IsDigit byte) (index : Nat) :
    digitAt index byte = .error (.badDigit byte index) := by
  have none := Option.not_isSome_iff_eq_none.mp (mt (isDigit_iff byte).mpr h)
  rw [digitAt, none]

theorem toLower_of_le {character : Char} (h : 128 ≤ character.toNat) :
    character.toLower = character := by
  have outside : ¬(character.val ≥ 'A'.val ∧ character.val ≤ 'Z'.val) := by
    rintro ⟨_, upper⟩
    have hUpper : character.toNat ≤ 90 := upper
    omega
  exact dif_neg outside

theorem toNat_digitChar_lt {value : Nat} (h : value < 16) : (Nat.digitChar value).toNat < 128 := by
  revert value
  decide

/-- What holds of a character in ASCII can be looked up. -/
theorem of_ascii (property : Char → Prop) (table : ∀ number < 128, property (Char.ofNat number))
    {character : Char} (small : character.toNat < 128) : property character := by
  have hTable := table character.toNat small
  rwa [Char.ofNat_toNat] at hTable

theorem utf8EncodeChar_of_ascii {character : Char} (small : character.toNat < 128) :
    String.utf8EncodeChar character = [.ofNat character.toNat] :=
  of_ascii (fun character => String.utf8EncodeChar character = [.ofNat character.toNat])
    (by decide +kernel) small

/-- A digit of either case is in ASCII. -/
theorem of_toLower (property : Char → Nat → Prop)
    (table : ∀ number < 128, ∀ value < 16, (Char.ofNat number).toLower = Nat.digitChar value →
      property (Char.ofNat number) value)
    {character : Char} {value : Nat} (hValue : value < 16)
    (h : character.toLower = Nat.digitChar value) : property character value := by
  have small : character.toNat < 128 := by
    by_contra large
    rw [toLower_of_le (Nat.not_lt.mp large)] at h
    exact large (h ▸ toNat_digitChar_lt hValue)
  exact of_ascii (fun character => ∀ value < 16, character.toLower = Nat.digitChar value →
    property character value) table small value hValue h

/-- It is one byte, and is read as the value that it is written for. -/
theorem digitAt_of_toLower {character : Char} {value : Nat} (hValue : value < 16)
    (h : character.toLower = Nat.digitChar value) :
    String.utf8EncodeChar character = [.ofNat character.toNat] ∧
      ∀ index, digitAt index (.ofNat character.toNat) = .ok value := by
  obtain ⟨small, hDigit⟩ := of_toLower (fun character value => character.toNat < 128 ∧
    digitValue? (Char.ofUInt8 (.ofNat character.toNat)) = some value) (by decide +kernel) hValue h
  exact ⟨utf8EncodeChar_of_ascii small, fun index => by rw [digitAt, hDigit]⟩

/-! ### Refusals -/

/-- The first byte that is no digit, so many bytes having come before. -/
def BadDigit (index : Nat) (digits : Bytes) (fault : Fault) : Prop :=
  ∃ front byte rest, (∀ digit ∈ front, IsDigit digit) ∧ ¬IsDigit byte ∧
    front ++ byte :: rest = digits ∧ fault = .badDigit byte (index + front.length)

theorem not_badDigit_nil {index : Nat} {fault : Fault} : ¬BadDigit index [] fault := by
  rintro ⟨front, byte, rest, _, _, impossible, _⟩
  exact List.append_ne_nil_of_right_ne_nil front (List.cons_ne_nil byte rest) impossible

theorem badDigit_cons_of_not {index : Nat} {byte : UInt8} (h : ¬IsDigit byte) (digits : Bytes)
    {fault : Fault} : BadDigit index (byte :: digits) fault ↔ fault = .badDigit byte index := by
  constructor
  · rintro ⟨front, bad, rest, hFront, _, hDigits, rfl⟩
    cases front with
    | nil =>
        cases hDigits
        rfl
    | cons first front =>
        cases hDigits
        exact absurd (hFront byte List.mem_cons_self) h
  · rintro rfl
    exact ⟨[], byte, digits, nofun, h, rfl, rfl⟩

theorem badDigit_cons_of_isDigit {index : Nat} {byte : UInt8} (h : IsDigit byte) (digits : Bytes)
    {fault : Fault} :
    BadDigit index (byte :: digits) fault ↔ BadDigit (index + 1) digits fault := by
  constructor
  · rintro ⟨front, bad, rest, hFront, hBad, hDigits, rfl⟩
    cases front with
    | nil =>
        cases hDigits
        exact absurd h hBad
    | cons first front =>
        cases hDigits
        refine ⟨front, bad, rest, fun digit member => hFront digit (List.mem_cons_of_mem _ member),
          hBad, rfl, ?_⟩
        rw [List.length_cons, Nat.add_assoc, Nat.add_comm 1]
  · rintro ⟨front, bad, rest, hFront, hBad, rfl, rfl⟩
    refine ⟨byte :: front, bad, rest, List.forall_mem_cons.mpr ⟨h, hFront⟩, hBad, rfl, ?_⟩
    rw [List.length_cons, Nat.add_assoc, Nat.add_comm 1]

theorem decodePairs_eq_error_iff {index : Nat} {digits : Bytes} (even : digits.length % 2 = 0)
    {fault : Fault} : decodePairs index digits = .error fault ↔ BadDigit index digits fault := by
  fun_induction decodePairs index digits with
  | case1 index high low rest ih =>
      rw [List.length_cons, List.length_cons] at even
      by_cases hHigh : IsDigit high
      · obtain ⟨upper, hUpper⟩ := digitAt_of_isDigit hHigh
        rw [hUpper, badDigit_cons_of_isDigit hHigh]
        by_cases hLow : IsDigit low
        · obtain ⟨lower, hLower⟩ := digitAt_of_isDigit hLow
          rw [hLower, badDigit_cons_of_isDigit hLow, ← ih (by omega)]
          cases decodePairs (index + 2) rest with
          | error cause => exact Iff.rfl
          | ok bytes => exact iff_of_false nofun nofun
        · rw [digitAt_of_not_isDigit hLow, badDigit_cons_of_not hLow]
          exact (Except.error.injEq _ _).to_iff.trans eq_comm
      · rw [digitAt_of_not_isDigit hHigh, badDigit_cons_of_not hHigh]
        exact (Except.error.injEq _ _).to_iff.trans eq_comm
  | case2 digits index short =>
      -- A single digit would be left out, but it has a partner.
      cases digits with
      | nil => exact iff_of_false nofun not_badDigit_nil
      | cons high digits =>
          cases digits with
          | nil => cases even
          | cons low rest => exact absurd rfl (short high low rest)

theorem exists_badDigit {digits : Bytes} {byte : UInt8} (member : byte ∈ digits)
    (hByte : ¬IsDigit byte) (index : Nat) : ∃ fault, BadDigit index digits fault := by
  induction digits generalizing index with
  | nil => cases member
  | cons digit digits ih =>
      by_cases hDigit : IsDigit digit
      · have later : byte ∈ digits := by
          apply (List.mem_cons.mp member).resolve_left
          rintro rfl
          exact hByte hDigit
        rcases ih later (index + 1) with ⟨fault, hFault⟩
        exact ⟨fault, (badDigit_cons_of_isDigit hDigit digits).mpr hFault⟩
      · exact ⟨_, (badDigit_cons_of_not hDigit digits).mpr rfl⟩

theorem refusal_iff_badDigit {digits : Bytes} (even : digits.length % 2 = 0) {fault : Fault} :
    Refusal digits fault ↔ BadDigit 0 digits fault := by
  constructor
  · intro h
    cases h with
    | oddLength odd => omega
    | badDigit _ hFront hByte => exact ⟨_, _, _, hFront, hByte, rfl, by rw [Nat.zero_add]⟩
  · rintro ⟨front, byte, rest, hFront, hByte, rfl, rfl⟩
    rw [Nat.zero_add]
    exact .badDigit even hFront hByte

theorem decode_eq_error_iff {text : Text} {fault : Fault} :
    decode text = .error fault ↔ Refusal (Utf8.encode text) fault := by
  unfold decode
  generalize Utf8.encode text = digits
  by_cases odd : digits.length % 2 = 1
  · rw [if_pos odd]
    constructor
    · intro h
      cases h
      exact .oddLength odd
    · intro h
      cases h with
      | oddLength _ => rfl
      | badDigit even _ _ => omega
  · have even : digits.length % 2 = 0 := by omega
    rw [if_neg odd, decodePairs_eq_error_iff even, refusal_iff_badDigit even]

theorem fault_unique {text : Text} {first second : Fault}
    (hFirst : Refusal (Utf8.encode text) first) (hSecond : Refusal (Utf8.encode text) second) :
    first = second := by
  have hDecode := decode_eq_error_iff.mpr hFirst
  rw [decode_eq_error_iff.mpr hSecond] at hDecode
  exact (Except.error.inj hDecode).symm

theorem exists_refusal_iff {digits : Bytes} :
    (∃ fault, Refusal digits fault) ↔ digits.length % 2 = 1 ∨ ∃ byte ∈ digits, ¬IsDigit byte := by
  constructor
  · rintro ⟨fault, odd | ⟨_, _, hByte⟩⟩
    · exact .inl odd
    · exact .inr ⟨_, List.mem_append_right _ List.mem_cons_self, hByte⟩
  · intro h
    by_cases odd : digits.length % 2 = 1
    · exact ⟨_, .oddLength odd⟩
    · rcases h.resolve_left odd with ⟨byte, member, hByte⟩
      rcases exists_badDigit member hByte 0 with ⟨fault, hFault⟩
      exact ⟨fault, (refusal_iff_badDigit (by omega)).mpr hFault⟩

/-! ### Spellings -/

theorem exists_digitChar_of_mem_encode {bytes : Bytes} {character : Char}
    (member : character ∈ encode bytes) : ∃ value < 16, character = Nat.digitChar value := by
  rcases List.mem_flatMap.mp member with ⟨byte, _, hPair⟩
  have hByte := byte.toNat_lt
  rcases List.mem_pair.mp hPair with rfl | rfl
  · exact ⟨byte.toNat / 16, by omega, rfl⟩
  · exact ⟨byte.toNat % 16, by omega, rfl⟩

theorem spells_encode (bytes : Bytes) : Spells (encode bytes) bytes := by
  have lower : ∀ value < 16, (Nat.digitChar value).toLower = Nat.digitChar value := by decide
  refine (List.map_congr_left ?_).trans (List.map_id _)
  intro character member
  rcases exists_digitChar_of_mem_encode member with ⟨value, hValue, rfl⟩
  exact lower value hValue

theorem encode_cons (byte : UInt8) (bytes : Bytes) : encode (byte :: bytes) =
    Nat.digitChar (byte.toNat / 16) :: Nat.digitChar (byte.toNat % 16) :: encode bytes :=
  rfl

theorem length_encode (bytes : Bytes) : (encode bytes).length = 2 * bytes.length := by
  induction bytes with
  | nil => rfl
  | cons byte bytes ih =>
      rw [encode_cons, List.length_cons, List.length_cons, List.length_cons, ih]
      omega

theorem Spells.exists_cons {text : Text} {byte : UInt8} {bytes : Bytes}
    (h : Spells text (byte :: bytes)) : ∃ high low rest, text = high :: low :: rest ∧
      high.toLower = Nat.digitChar (byte.toNat / 16) ∧
      low.toLower = Nat.digitChar (byte.toNat % 16) ∧ Spells rest bytes := by
  rw [Spells, encode_cons, List.map_eq_cons_iff] at h
  rcases h with ⟨high, behind, rfl, hHigh, hBehind⟩
  rcases List.map_eq_cons_iff.mp hBehind with ⟨low, rest, rfl, hLow, hRest⟩
  exact ⟨high, low, rest, rfl, hHigh, hLow, hRest⟩

theorem Spells.decodePairs_eq {text : Text} {bytes : Bytes} (h : Spells text bytes) :
    (Utf8.encode text).length % 2 = 0 ∧
      ∀ index, decodePairs index (Utf8.encode text) = .ok bytes := by
  induction bytes generalizing text with
  | nil =>
      obtain rfl := List.map_eq_nil_iff.mp h
      exact ⟨rfl, fun _ => rfl⟩
  | cons byte bytes ih =>
      have hByte := byte.toNat_lt
      rcases h.exists_cons with ⟨high, low, rest, rfl, hHigh, hLow, hRest⟩
      obtain ⟨hHighBytes, hUpper⟩ := digitAt_of_toLower (by omega) hHigh
      obtain ⟨hLowBytes, hLower⟩ := digitAt_of_toLower (by omega) hLow
      obtain ⟨even, hPairs⟩ := ih hRest
      have hText : Utf8.encode (high :: low :: rest) =
          .ofNat high.toNat :: .ofNat low.toNat :: Utf8.encode rest := by
        rw [Utf8.encode, List.flatMap_cons, List.flatMap_cons, hHighBytes, hLowBytes]
        rfl
      have joined : UInt8.ofNat (16 * (byte.toNat / 16) + byte.toNat % 16) = byte := by
        rw [Nat.div_add_mod, UInt8.ofNat_toNat]
      rw [hText]
      constructor
      · rw [List.length_cons, List.length_cons]
        omega
      · intro index
        rw [decodePairs, hUpper, hLower, hPairs]
        exact congrArg (fun first => Except.ok (first :: bytes)) joined

theorem Spells.decode_eq {text : Text} {bytes : Bytes} (h : Spells text bytes) :
    decode text = .ok bytes := by
  obtain ⟨even, hPairs⟩ := h.decodePairs_eq
  unfold decode
  rw [if_neg (by omega), hPairs]

theorem encode_injective {first second : Bytes} (h : encode first = encode second) :
    first = second := by
  have hDecode := (spells_encode first).decode_eq
  rw [h, (spells_encode second).decode_eq] at hDecode
  exact (Except.ok.inj hDecode).symm

/-! ### Digits of a text -/

theorem IsDigit.toNat_lt {byte : UInt8} (h : IsDigit byte) : byte.toNat < 128 := by
  revert byte
  decide +kernel

theorem IsDigitChar.toNat_lt {character : Char} (h : IsDigitChar character) :
    character.toNat < 128 := by
  have bound : ∀ {last : Char}, character ≤ last → character.toNat ≤ last.toNat := id
  rcases h with ⟨_, upper⟩ | ⟨_, upper⟩ | ⟨_, upper⟩
  · exact Nat.lt_of_le_of_lt (bound upper) (by decide)
  · exact Nat.lt_of_le_of_lt (bound upper) (by decide)
  · exact Nat.lt_of_le_of_lt (bound upper) (by decide)

theorem isDigitChar_iff (character : Char) :
    IsDigitChar character ↔ ∃ value < 16, character.toLower = Nat.digitChar value := by
  constructor
  · intro h
    exact of_ascii (fun character => IsDigitChar character →
      ∃ value < 16, character.toLower = Nat.digitChar value) (by decide +kernel) h.toNat_lt h
  · rintro ⟨value, hValue, h⟩
    exact of_toLower (fun character _ => IsDigitChar character) (by decide +kernel) hValue h

/-- A character of more bytes than one begins with a byte that is no digit. -/
theorem forall_mem_encodeChar_iff (character : Char) :
    (∀ byte ∈ String.utf8EncodeChar character, IsDigit byte) ↔ IsDigitChar character := by
  by_cases small : character.toNat < 128
  · rw [utf8EncodeChar_of_ascii small, List.forall_mem_singleton]
    exact of_ascii (fun character => IsDigit (.ofNat character.toNat) ↔ IsDigitChar character)
      (by decide +kernel) small
  · rcases Utf8.exists_encodeChar character with ⟨first, tail, form, hBytes⟩
    have large : 128 ≤ first.toNat := by cases form <;> omega
    refine iff_of_false ?_ (mt IsDigitChar.toNat_lt small)
    intro digits
    have hFirst := (digits first (hBytes ▸ List.mem_cons_self)).toNat_lt
    omega

theorem forall_mem_utf8_iff {text : Text} :
    (∀ byte ∈ Utf8.encode text, IsDigit byte) ↔ ∀ character ∈ text, IsDigitChar character := by
  simp only [Utf8.encode, List.forall_mem_flatMap, forall_mem_encodeChar_iff]

theorem length_utf8_of_isDigitChar {text : Text} (h : ∀ character ∈ text, IsDigitChar character) :
    (Utf8.encode text).length = text.length := by
  induction text with
  | nil => rfl
  | cons character text ih =>
      obtain ⟨hCharacter, hText⟩ := List.forall_mem_cons.mp h
      obtain ⟨value, hValue, hLower⟩ := (isDigitChar_iff character).mp hCharacter
      have hBytes := (digitAt_of_toLower hValue hLower).1
      rw [Utf8.encode, List.flatMap_cons, hBytes, List.length_append, List.length_singleton,
        List.length_cons, Nat.add_comm]
      exact congrArg Nat.succ (ih hText)

theorem Spells.isDigitChar {text : Text} {bytes : Bytes} (h : Spells text bytes) :
    ∀ character ∈ text, IsDigitChar character := by
  intro character member
  have hLower := List.mem_map_of_mem (f := Char.toLower) member
  rw [h] at hLower
  rcases exists_digitChar_of_mem_encode hLower with ⟨value, hValue, same⟩
  exact (isDigitChar_iff character).mpr ⟨value, hValue, same⟩

theorem Spells.length_eq {text : Text} {bytes : Bytes} (h : Spells text bytes) :
    text.length = 2 * bytes.length := by
  rw [← length_encode, ← h, List.length_map]

theorem exists_spells {text : Text} (even : text.length % 2 = 0)
    (h : ∀ character ∈ text, IsDigitChar character) : ∃ bytes, Spells text bytes := by
  induction text using List.twoStepInduction with
  | nil => exact ⟨[], rfl⟩
  | singleton digit => cases even
  | cons_cons high low rest ih _ =>
      obtain ⟨hHigh, hBehind⟩ := List.forall_mem_cons.mp h
      obtain ⟨hLow, hRest⟩ := List.forall_mem_cons.mp hBehind
      rcases (isDigitChar_iff high).mp hHigh with ⟨upper, hUpper, highLower⟩
      rcases (isDigitChar_iff low).mp hLow with ⟨lower, hLower, lowLower⟩
      rw [List.length_cons, List.length_cons] at even
      rcases ih (by omega) hRest with ⟨bytes, hBytes⟩
      have hByte : (UInt8.ofNat (16 * upper + lower)).toNat = 16 * upper + lower := by
        rw [UInt8.toNat_ofNat']
        omega
      have hDiv : (16 * upper + lower) / 16 = upper := by omega
      have hMod : (16 * upper + lower) % 16 = lower := by omega
      refine ⟨.ofNat (16 * upper + lower) :: bytes, ?_⟩
      rw [Spells, List.map_cons, List.map_cons, hBytes, encode_cons, hByte, hDiv, hMod, highLower,
        lowLower]

theorem decode_eq_ok_iff {text : Text} {bytes : Bytes} :
    decode text = .ok bytes ↔ Spells text bytes := by
  constructor
  · intro h
    have accepted : ¬∃ fault, Refusal (Utf8.encode text) fault := by
      rintro ⟨fault, refused⟩
      rw [decode_eq_error_iff.mpr refused] at h
      cases h
    rw [exists_refusal_iff, not_or] at accepted
    obtain ⟨notOdd, digits⟩ := accepted
    have digits : ∀ character ∈ text, IsDigitChar character := by
      rw [← forall_mem_utf8_iff]
      intro byte member
      by_contra hByte
      exact digits ⟨byte, member, hByte⟩
    rw [length_utf8_of_isDigitChar digits] at notOdd
    rcases exists_spells (by omega) digits with ⟨other, hOther⟩
    rw [hOther.decode_eq] at h
    exact Except.ok.inj h ▸ hOther
  · exact Spells.decode_eq

theorem spells_or_refused (text : Text) :
    (∃ bytes, Spells text bytes) ∨ ∃ fault, Refusal (Utf8.encode text) fault := by
  cases hDecode : decode text with
  | error fault => exact .inr ⟨fault, decode_eq_error_iff.mp hDecode⟩
  | ok bytes => exact .inl ⟨bytes, decode_eq_ok_iff.mp hDecode⟩

end Timestamping.Hex
