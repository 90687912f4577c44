import Timestamping.Bytes

/-!
Numbers of JSON. A literal of digits alone is a natural number; every other literal is a significand
and a power of ten. Whether a literal has a finite value in binary64 is decided on natural numbers,
with the two roundings that a reader makes which scales the significand by a rounded power.
-/

namespace Timestamping

/-- `decimal negative significand exponent` stands for `±significand · 10^exponent`. -/
inductive Number
  | natural (value : Nat)
  | decimal (negative : Bool) (significand : Nat) (exponent : Int)
deriving DecidableEq, Repr

namespace Number

/-- The multiple of `2^shift` nearest to the value, where the shift leaves 53 bits. A tie goes to
the multiple whose quotient is even. -/
def round53 (value : Nat) : Nat :=
  let unit := 1 <<< (Nat.log2 value + 1 - 53)
  let quotient := value / unit
  let excess := 2 * (value % unit)
  if unit < excess ∨ excess = unit ∧ quotient % 2 = 1 then (quotient + 1) * unit
  else quotient * unit

/-- The leading digits that fit 64 bits. A digit left out raises the exponent. -/
def leading (significand : Nat) (exponent : Int) : Nat × Int :=
  if significand < UInt64.size then (significand, exponent)
  else leading (significand / 10) (exponent + 1)
termination_by significand
decreasing_by
  rw [UInt64.size] at *
  omega

/-- From here on a value rounds to infinity. -/
def overflowBound : Nat := 1 <<< 1024 - 1 <<< 970

/-- A quotient by a power of ten never overflows, nor does a product with nought; powers above the
308th have no finite value. -/
def isFiniteScaled (significand : Nat) (exponent : Int) : Bool :=
  match leading significand exponent with
  | (0, _) => true
  | (_, .negSucc _) => true
  | (digits, .ofNat power) =>
      power ≤ 308 && round53 digits * round53 (Nat.pow 10 power) < overflowBound

def isFinite : Number → Bool
  | .natural value => isFiniteScaled value 0
  | .decimal _ significand exponent => isFiniteScaled significand exponent

def render : Number → Text
  | .natural value => Nat.toDigits 10 value
  | .decimal negative significand exponent =>
      let sign : Text := if negative then ['-'] else []
      let power : Text :=
        match exponent with
        | .ofNat power => Nat.toDigits 10 power
        | .negSucc power => '-' :: Nat.toDigits 10 (power + 1)
      sign ++ Nat.toDigits 10 significand ++ 'e' :: power

def ofDigits (digits : Text) : Nat :=
  Nat.ofDigitChars 10 digits 0

def digits? (text : Text) : Option (Text × Text) :=
  let digits := text.takeWhile Char.isDigit
  if digits.isEmpty then none else some (digits, text.dropWhile Char.isDigit)

/-- No digit follows a leading nought. -/
def whole? (text : Text) : Option (Text × Text) :=
  match digits? text with
  | some ('0' :: _ :: _, _) => none
  | result => result

def fraction? : Text → Option (Text × Text)
  | '.' :: rest => digits? rest
  | rest => some ([], rest)

def power? : Text → Option (Int × Text)
  | '-' :: rest => (digits? rest).map fun result => (-(ofDigits result.1 : Int), result.2)
  | '+' :: rest => (digits? rest).map fun result => ((ofDigits result.1 : Int), result.2)
  | rest => (digits? rest).map fun result => ((ofDigits result.1 : Int), result.2)

def exponent? : Text → Option (Option Int × Text)
  | 'e' :: rest => (power? rest).map fun result => (some result.1, result.2)
  | 'E' :: rest => (power? rest).map fun result => (some result.1, result.2)
  | rest => some (none, rest)

def ofParts (negative : Bool) (whole fraction : Text) (exponent : Option Int) : Number :=
  match negative, fraction, exponent with
  | false, [], none => .natural (ofDigits whole)
  | _, _, _ =>
      .decimal negative (ofDigits (whole ++ fraction)) (exponent.getD 0 - fraction.length)

def magnitude? (negative : Bool) (text : Text) : Option (Number × Text) := do
  let (whole, afterWhole) ← whole? text
  let (fraction, afterFraction) ← fraction? afterWhole
  let (exponent, rest) ← exponent? afterFraction
  pure (ofParts negative whole fraction exponent, rest)

def scan? : Text → Option (Number × Text)
  | '-' :: rest => magnitude? true rest
  | text => magnitude? false text

private theorem digits?_length {text digits rest : Text} (h : digits? text = some (digits, rest)) :
    rest.length < text.length := by
  simp only [digits?] at h
  split at h
  · cases h
  · next hDigits =>
      cases h
      have hSplit := congrArg List.length (List.takeWhile_append_dropWhile
        (p := Char.isDigit) (l := text))
      rw [List.length_append] at hSplit
      have hSome := List.length_pos_iff.mpr (mt List.isEmpty_iff.mpr hDigits)
      omega

private theorem whole?_length {text digits rest : Text} (h : whole? text = some (digits, rest)) :
    rest.length < text.length := by
  unfold whole? at h
  split at h
  · cases h
  · exact digits?_length h

private theorem fraction?_length {text digits rest : Text}
    (h : fraction? text = some (digits, rest)) : rest.length ≤ text.length := by
  unfold fraction? at h
  split at h
  · exact Nat.le_succ_of_le (Nat.le_of_lt (digits?_length h))
  · cases h
    exact Nat.le_refl _

private theorem power?_length {text rest : Text} {power : Int}
    (h : power? text = some (power, rest)) : rest.length ≤ text.length := by
  unfold power? at h
  split at h
  all_goals
    obtain ⟨⟨digits, after⟩, hDigits, hResult⟩ := Option.map_eq_some_iff.mp h
    cases hResult
    have hLength := digits?_length hDigits
    simp only [List.length_cons] at *
    omega

private theorem exponent?_length {text rest : Text} {exponent : Option Int}
    (h : exponent? text = some (exponent, rest)) : rest.length ≤ text.length := by
  unfold exponent? at h
  split at h
  case h_3 =>
    cases h
    exact Nat.le_refl _
  all_goals
    obtain ⟨⟨power, after⟩, hPower, hResult⟩ := Option.map_eq_some_iff.mp h
    cases hResult
    exact Nat.le_succ_of_le (power?_length hPower)

private theorem magnitude?_length {negative : Bool} {text rest : Text} {number : Number}
    (h : magnitude? negative text = some (number, rest)) : rest.length < text.length := by
  simp only [magnitude?, Option.bind_eq_bind, Option.bind_eq_some_iff, Option.pure_def] at h
  obtain ⟨⟨whole, afterWhole⟩, hWhole, ⟨fraction, afterFraction⟩, hFraction,
    ⟨exponent, after⟩, hExponent, hResult⟩ := h
  cases hResult
  exact Nat.lt_of_le_of_lt (exponent?_length hExponent)
    (Nat.lt_of_le_of_lt (fraction?_length hFraction) (whole?_length hWhole))

theorem length_lt_of_scan? {text rest : Text} {number : Number}
    (h : scan? text = some (number, rest)) : rest.length < text.length := by
  unfold scan? at h
  split at h
  · exact Nat.lt_succ_of_lt (magnitude?_length h)
  · exact magnitude?_length h

end Number

end Timestamping
