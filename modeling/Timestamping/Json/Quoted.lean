import Timestamping.Text.Hex
import Timestamping.Text.Utf16

/-!
String literals of JSON. A literal stands for 16-bit units: an escape may name half of a surrogate
pair, so not every literal is a text.
-/

namespace Timestamping.Quoted

def escapes : List (Char × UInt16) :=
  [('"', 0x22), ('\\', 0x5C), ('/', 0x2F), ('b', 0x08), ('f', 0x0C), ('n', 0x0A), ('r', 0x0D),
    ('t', 0x09)]

def unit? (first second third fourth : Char) : Option UInt16 := do
  let first ← Hex.digitValue? first
  let second ← Hex.digitValue? second
  let third ← Hex.digitValue? third
  let fourth ← Hex.digitValue? fourth
  pure (UInt16.ofNat (4096 * first + 256 * second + 16 * third + fourth))

/-- Reads behind the opening quote, up to the closing one. Control characters must be escaped. -/
def body? : Text → Option (List UInt16 × Text)
  | [] => none
  | '"' :: rest => some ([], rest)
  | '\\' :: 'u' :: first :: second :: third :: fourth :: rest => do
      let unit ← unit? first second third fourth
      let (units, after) ← body? rest
      pure (unit :: units, after)
  | '\\' :: letter :: rest => do
      let unit ← escapes.lookup letter
      let (units, after) ← body? rest
      pure (unit :: units, after)
  | character :: rest =>
      if character.toNat < 0x20 ∨ character = '\\' then none
      else do
        let (units, after) ← body? rest
        pure (Utf16.encodeChar character ++ units, after)

/-- Printable ASCII stands for itself, quote and backslash excepted. -/
def renderUnit (unit : UInt16) : Text :=
  let value := unit.toNat
  if 0x20 ≤ value ∧ value ≤ 0x7E ∧ value ≠ 0x22 ∧ value ≠ 0x5C then [Char.ofNat value]
  else
    ['\\', 'u', Nat.digitChar (value / 4096), Nat.digitChar (value / 256 % 16),
      Nat.digitChar (value / 16 % 16), Nat.digitChar (value % 16)]

def render (units : List UInt16) : Text :=
  '"' :: units.flatMap renderUnit ++ ['"']

theorem length_lt_of_body? {text rest : Text} {units : List UInt16}
    (h : body? text = some (units, rest)) : rest.length < text.length := by
  fun_induction body? text generalizing units with
  | case1 => cases h
  | case2 =>
      cases h
      exact Nat.lt_succ_self _
  | case3 first second third fourth tail ih =>
      simp only [Option.bind_eq_bind, Option.bind_eq_some_iff, Option.pure_def] at h
      obtain ⟨unit, -, ⟨inner, after⟩, hInner, hResult⟩ := h
      cases hResult
      have hLength : after.length < tail.length := ih hInner
      simp only [List.length_cons]
      omega
  | case4 letter tail _ ih =>
      simp only [Option.bind_eq_bind, Option.bind_eq_some_iff, Option.pure_def] at h
      obtain ⟨unit, -, ⟨inner, after⟩, hInner, hResult⟩ := h
      cases hResult
      have hLength : after.length < tail.length := ih hInner
      simp only [List.length_cons]
      omega
  | case5 => cases h
  | case6 character tail _ _ _ _ ih =>
      simp only [Option.bind_eq_bind, Option.bind_eq_some_iff, Option.pure_def] at h
      obtain ⟨⟨inner, after⟩, hInner, hResult⟩ := h
      cases hResult
      exact Nat.lt_succ_of_lt (ih hInner)

end Timestamping.Quoted
