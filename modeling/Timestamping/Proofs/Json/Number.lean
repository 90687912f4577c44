import Timestamping.Json.Number

/-!
Numbers of JSON read back. A number is read off the front of a text that begins with its literal,
and what follows the literal is left alone, as long as it does not go on with it. A number of 64
bits is a finite value.
-/

namespace Timestamping.Number

/-- What stands behind a number does not belong to its literal. -/
def EndsBefore (rest : Text) : Prop :=
  ∀ character ∈ rest.head?, character.isDigit = false ∧ character ≠ '.' ∧ character ≠ 'e' ∧
    character ≠ 'E'

/-! ### Digits -/

theorem digits?_append {digits rest : Text} (hDigits : ∀ digit ∈ digits, digit.isDigit = true)
    (hSome : digits ≠ []) (hRest : ∀ character ∈ rest.head?, character.isDigit = false) :
    digits? (digits ++ rest) = some (digits, rest) := by
  have hNone : rest.takeWhile Char.isDigit = [] ∧ rest.dropWhile Char.isDigit = rest := by
    cases rest with
    | nil => exact ⟨rfl, rfl⟩
    | cons character rest =>
        have stops := hRest character rfl
        exact ⟨List.takeWhile_cons_of_neg (by simp [stops]),
          List.dropWhile_cons_of_neg (by simp [stops])⟩
  rw [digits?, List.takeWhile_append_of_pos hDigits, List.dropWhile_append_of_pos hDigits,
    hNone.1, hNone.2, List.append_nil, List.isEmpty_eq_false_iff.mpr hSome]
  rfl

theorem digits?_toDigits (value : Nat) {rest : Text}
    (hRest : ∀ character ∈ rest.head?, character.isDigit = false) :
    digits? (Nat.toDigits 10 value ++ rest) = some (Nat.toDigits 10 value, rest) :=
  digits?_append (fun _ => Nat.isDigit_of_mem_toDigits (by decide) (by decide))
    Nat.toDigits_ne_nil hRest

theorem toDigits_eq_cons (value : Nat) :
    ∃ first rest, Nat.toDigits 10 value = first :: rest ∧ first.isDigit = true := by
  rcases List.exists_cons_of_ne_nil (Nat.toDigits_ne_nil (n := value) (b := 10)) with
    ⟨first, rest, h⟩
  refine ⟨first, rest, h, Nat.isDigit_of_mem_toDigits (b := 10) (n := value) (by decide)
    (by decide) ?_⟩
  rw [h]
  exact List.mem_cons_self

theorem toDigits_append_ne_cons {value : Nat} {behind rest : Text} {first : Char}
    (h : first.isDigit = false) : Nat.toDigits 10 value ++ behind ≠ first :: rest := by
  rcases toDigits_eq_cons value with ⟨digit, digits, hDigits, isDigit⟩
  rw [hDigits, List.cons_append]
  intro same
  rw [(List.cons.inj same).1, h] at isDigit
  cases isDigit

/-- Only nought itself begins with a nought. -/
theorem toDigits_leading {value : Nat} {rest : Text} (h : Nat.toDigits 10 value = '0' :: rest) :
    rest = [] := by
  induction value using Nat.strongRecOn generalizing rest with
  | ind value ih =>
      by_cases small : value < 10
      · rw [Nat.toDigits_of_lt_base small] at h
        exact (List.cons.inj h).2.symm
      · have large : 10 ≤ value := Nat.le_of_not_lt small
        have shorter : value / 10 < value := by omega
        rcases toDigits_eq_cons (value / 10) with ⟨first, upper, hUpper, _⟩
        rw [Nat.toDigits_of_base_le (by decide) large, hUpper] at h
        obtain ⟨rfl, -⟩ := List.cons.inj h
        have nought : value / 10 = 0 := by
          rw [← @Nat.ofDigitChars_ten_toDigits (value / 10), hUpper, ih _ shorter hUpper]
          rfl
        omega

theorem ofDigits_toDigits (value : Nat) : ofDigits (Nat.toDigits 10 value) = value :=
  Nat.ofDigitChars_ten_toDigits

/-! ### Parts of a literal -/

theorem whole?_toDigits (value : Nat) {rest : Text}
    (hRest : ∀ character ∈ rest.head?, character.isDigit = false) :
    whole? (Nat.toDigits 10 value ++ rest) = some (Nat.toDigits 10 value, rest) := by
  rw [whole?, digits?_toDigits value hRest]
  split
  case h_1 next tail after h =>
    obtain ⟨hDigits, -⟩ := Prod.mk.inj (Option.some.inj h)
    cases toDigits_leading hDigits
  case h_2 => rfl

theorem fraction?_of_absent {rest : Text} (h : ∀ character ∈ rest.head?, character ≠ '.') :
    fraction? rest = some ([], rest) := by
  unfold fraction?
  split
  · exact absurd rfl (h '.' rfl)
  · rfl

theorem exponent?_of_absent {rest : Text}
    (h : ∀ character ∈ rest.head?, character ≠ 'e' ∧ character ≠ 'E') :
    exponent? rest = some (none, rest) := by
  unfold exponent?
  split
  · exact absurd rfl (h 'e' rfl).1
  · exact absurd rfl (h 'E' rfl).2
  · rfl

theorem power?_toDigits (value : Nat) {rest : Text}
    (hRest : ∀ character ∈ rest.head?, character.isDigit = false) :
    power? (Nat.toDigits 10 value ++ rest) = some ((value : Int), rest) := by
  unfold power?
  split
  case h_1 tail hText => exact absurd hText (toDigits_append_ne_cons (by decide))
  case h_2 tail hText => exact absurd hText (toDigits_append_ne_cons (by decide))
  case h_3 => rw [digits?_toDigits value hRest, Option.map_some, ofDigits_toDigits]

theorem power?_minus (value : Nat) {rest : Text}
    (hRest : ∀ character ∈ rest.head?, character.isDigit = false) :
    power? ('-' :: Nat.toDigits 10 value ++ rest) = some (-(value : Int), rest) := by
  rw [List.cons_append, power?, digits?_toDigits value hRest, Option.map_some, ofDigits_toDigits]

/-! ### Literals -/

theorem magnitude?_of_parts {text whole afterWhole fraction afterFraction rest : Text}
    {exponent : Option Int} (hWhole : whole? text = some (whole, afterWhole))
    (hFraction : fraction? afterWhole = some (fraction, afterFraction))
    (hExponent : exponent? afterFraction = some (exponent, rest)) (negative : Bool) :
    magnitude? negative text = some (ofParts negative whole fraction exponent, rest) := by
  simp only [magnitude?, hWhole, hFraction, hExponent, Option.bind_eq_bind, Option.bind_some,
    Option.pure_def]

theorem scan?_of_magnitude? {value : Nat} {rest : Text} {number : Number} {after : Text}
    (h : magnitude? false (Nat.toDigits 10 value ++ rest) = some (number, after)) :
    scan? (Nat.toDigits 10 value ++ rest) = some (number, after) := by
  unfold scan?
  split
  case h_1 tail hText => exact absurd hText (toDigits_append_ne_cons (by decide))
  case h_2 => exact h

theorem scan?_natural (value : Nat) {rest : Text} (hRest : EndsBefore rest) :
    scan? (Nat.toDigits 10 value ++ rest) = some (.natural value, rest) := by
  have hWhole := whole?_toDigits value fun character h => (hRest character h).1
  have hFraction := fraction?_of_absent fun character h => (hRest character h).2.1
  have hExponent := exponent?_of_absent fun character h => (hRest character h).2.2
  have hMagnitude := magnitude?_of_parts hWhole hFraction hExponent false
  rw [ofParts, ofDigits_toDigits] at hMagnitude
  exact scan?_of_magnitude? hMagnitude

theorem scan?_decimal (negative : Bool) (significand : Nat) {exponent : Int} {power rest : Text}
    (hPower : power? (power ++ rest) = some (exponent, rest)) :
    scan? ((if negative then ['-'] else []) ++ Nat.toDigits 10 significand ++ 'e' :: power ++
      rest) = some (.decimal negative significand exponent, rest) := by
  have hExponent : exponent? ('e' :: (power ++ rest)) = some (some exponent, rest) := by
    rw [exponent?, hPower, Option.map_some]
  have behind : ∀ character ∈ ('e' :: (power ++ rest)).head?,
      character.isDigit = false ∧ character ≠ '.' := by
    rintro character h
    cases h
    decide
  have hWhole := whole?_toDigits significand fun character h => (behind character h).1
  have hFraction := fraction?_of_absent fun character h => (behind character h).2
  have hMagnitude := magnitude?_of_parts hWhole hFraction hExponent negative
  have hParts : ofParts negative (Nat.toDigits 10 significand) [] (some exponent) =
      .decimal negative significand exponent := by
    simp [ofParts, ofDigits_toDigits]
  rw [hParts] at hMagnitude
  rw [List.append_assoc, List.append_assoc]
  cases negative with
  | true => exact hMagnitude
  | false => exact scan?_of_magnitude? hMagnitude

theorem render_eq_cons (number : Number) :
    ∃ first rest, number.render = first :: rest ∧ (first.isDigit = true ∨ first = '-') := by
  cases number with
  | natural value =>
      rcases toDigits_eq_cons value with ⟨first, rest, h, isDigit⟩
      exact ⟨first, rest, h, .inl isDigit⟩
  | decimal negative significand exponent =>
      rcases toDigits_eq_cons significand with ⟨first, rest, h, isDigit⟩
      cases negative with
      | true => exact ⟨'-', _, rfl, .inr rfl⟩
      | false =>
          simp only [render, h]
          exact ⟨first, _, rfl, .inl isDigit⟩

theorem scan?_render (number : Number) {rest : Text} (hRest : EndsBefore rest) :
    scan? (number.render ++ rest) = some (number, rest) := by
  have noDigit : ∀ character ∈ rest.head?, character.isDigit = false :=
    fun character h => (hRest character h).1
  cases number with
  | natural value => exact scan?_natural value hRest
  | decimal negative significand exponent =>
      cases exponent with
      | ofNat power => exact scan?_decimal negative significand (power?_toDigits power noDigit)
      | negSucc power =>
          exact scan?_decimal negative significand (power?_minus (power + 1) noDigit)

/-! ### Finite values -/

theorem round53_le {value : Nat} (h : value ≠ 0) : round53 value ≤ 2 * value := by
  have hUnit : 1 <<< (Nat.log2 value + 1 - 53) ≤ value := by
    rw [Nat.one_shiftLeft]
    exact Nat.le_trans (Nat.pow_le_pow_right (by decide) (by omega)) (Nat.log2_self_le h)
  have hQuotient := Nat.div_mul_le_self value (1 <<< (Nat.log2 value + 1 - 53))
  rw [round53]
  split
  · rw [Nat.succ_mul]
    omega
  · omega

/-- Numbers of 64 bits are far from any that rounds to infinity. -/
theorem isFinite_natural {value : Nat} (h : value < UInt64.size) :
    (Number.natural value).isFinite = true := by
  rw [isFinite, isFiniteScaled, leading, if_pos h]
  cases value with
  | zero => rfl
  | succ value =>
      have hRound : round53 (value + 1) ≤ 2 * (value + 1) := round53_le (Nat.succ_ne_zero value)
      have hOne : round53 (Nat.pow 10 0) = 1 := by decide
      have hBound : 2 * UInt64.size < overflowBound := by decide
      change (decide (0 ≤ 308) && decide
        (round53 (value + 1) * round53 (Nat.pow 10 0) < overflowBound)) = true
      rw [hOne, Nat.mul_one, Bool.and_eq_true, decide_eq_true_eq, decide_eq_true_eq]
      exact ⟨by decide, by omega⟩

end Timestamping.Number
