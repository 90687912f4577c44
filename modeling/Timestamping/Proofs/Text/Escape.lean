import Timestamping.Proofs.Text.Hex

/-!
Bytes inside quotes. Main statements: what is written for a byte can be read back in front of any
text, so the first bare quote closes the string and the bytes in front of it are told; and all of
it is printable.
-/

namespace Timestamping.Escape

/-- The characters of ASCII that leave a mark, and the blank. -/
def IsPrintable (character : Char) : Prop :=
  0x20 ≤ character.toNat ∧ character.toNat ≤ 0x7E

instance (character : Char) : Decidable (IsPrintable character) :=
  inferInstanceAs (Decidable (_ ∧ _))

theorem isPrintable_of_all {text : Text} (h : text.all (decide <| IsPrintable ·) = true) :
    ∀ character ∈ text, IsPrintable character :=
  fun character member => of_decide_eq_true (List.all_eq_true.mp h character member)

theorem isPrintable_of_mem_byte (written : UInt8) :
    ∀ character ∈ byte written, IsPrintable character := by
  apply isPrintable_of_all
  revert written
  decide +kernel

theorem isPrintable_of_mem_bytes {written : Bytes} {character : Char}
    (member : character ∈ bytes written) : IsPrintable character := by
  rcases List.mem_flatMap.mp member with ⟨one, _, hOne⟩
  exact isPrintable_of_mem_byte one character hOne

theorem isPrintable_digitChar {value : Nat} (h : value < 16) : IsPrintable (Nat.digitChar value) := by
  revert value
  decide

/-! ### Reading back -/

/-- The byte that a letter stands for behind a backslash. -/
def named? : Char → Option UInt8
  | 't' => some 0x09
  | 'n' => some 0x0A
  | 'r' => some 0x0D
  | '"' => some 0x22
  | '\'' => some 0x27
  | '\\' => some 0x5C
  | _ => none

/-- The byte that a text begins with, and the text behind it. A bare quote is no byte: it ends the
string. -/
def next? : Text → Option (UInt8 × Text)
  | '\\' :: 'x' :: high :: low :: rest =>
      match Hex.decode [high, low] with
      | .ok [read] => some (read, rest)
      | _ => none
  | '\\' :: letter :: rest => (named? letter).map (·, rest)
  | '"' :: _ => none
  | character :: rest => some (.ofNat character.toNat, rest)
  | [] => none

theorem next?_hexPair (written : UInt8) (rest : Text) :
    next? ('\\' :: 'x' :: (hexPair written ++ rest)) = some (written, rest) := by
  have hDecode : Hex.decode (hexPair written) = .ok [written] :=
    (Hex.spells_encode [written]).decode_eq
  simp only [hexPair, List.cons_append, List.nil_append, next?] at hDecode ⊢
  rw [hDecode]

theorem next?_literal {character : Char} (hQuote : character ≠ '"') (hBackslash : character ≠ '\\')
    (rest : Text) : next? (character :: rest) = some (.ofNat character.toNat, rest) := by
  unfold next?
  split <;> simp_all

/-- A byte that is written as itself is neither a quote nor a backslash. -/
theorem literal_of_printable (written : UInt8) (hDouble : written ≠ 0x22)
    (hBackslash : written ≠ 0x5C) :
    Char.ofUInt8 written ≠ '"' ∧ Char.ofUInt8 written ≠ '\\' ∧
      UInt8.ofNat (Char.ofUInt8 written).toNat = written := by
  revert written
  decide +kernel

theorem next?_byte (written : UInt8) (rest : Text) :
    next? (byte written ++ rest) = some (written, rest) := by
  unfold byte
  split
  · next h => rw [h]; rfl
  split
  · next h => rw [h]; rfl
  split
  · next h => rw [h]; rfl
  split
  · next h => rw [h]; rfl
  split
  · next h => rw [h]; rfl
  split
  · next h => rw [h]; rfl
  split
  · next hDouble _ hBackslash _ =>
      obtain ⟨notDouble, notBackslash, same⟩ := literal_of_printable written hDouble hBackslash
      rw [List.singleton_append, next?_literal notDouble notBackslash, same]
  · exact next?_hexPair written rest

theorem bytes_append_quote_inj {first second : Bytes} {behind other : Text}
    (h : bytes first ++ '"' :: behind = bytes second ++ '"' :: other) :
    first = second ∧ behind = other := by
  have closed (rest : Text) : next? ('"' :: rest) = none := rfl
  induction first generalizing second with
  | nil =>
      cases second with
      | nil => exact ⟨rfl, (List.cons.inj h).2⟩
      | cons written second =>
          have read := congrArg next? h
          rw [bytes, bytes, List.flatMap_nil, List.nil_append, closed, List.flatMap_cons,
            List.append_assoc, next?_byte] at read
          cases read
  | cons written first ih =>
      have read := congrArg next? h
      rw [bytes, List.flatMap_cons, List.append_assoc, next?_byte] at read
      cases second with
      | nil => cases read
      | cons other second =>
          rw [bytes, List.flatMap_cons, List.append_assoc, next?_byte] at read
          obtain ⟨rfl, hRest⟩ := Prod.mk.inj (Option.some.inj read)
          obtain ⟨rfl, hBehind⟩ := ih hRest
          exact ⟨rfl, hBehind⟩

end Timestamping.Escape
