import Timestamping.Proofs.Machine.Agreement
import Timestamping.Proofs.Varint.Shortest

/-!
Byte strings with a length in front. The length is read as any number is, then held against the
bounds and last against what stands behind it. Main statement: these are the three ways to fail, in
this order and for any bounds at all, and a length out of bounds fails whatever bytes follow it.
-/

namespace Timestamping.VarBytes

variable {min max : Nat} {input front : Bytes}

/-- Bytes at the front of some input that are read as a number, with nothing left of them. -/
def Announces (input front : Bytes) (length : UInt64) : Prop :=
  Varint.read front = .ok (length, []) ∧ front <+: input

/-- What is said of a length with `left` bytes behind it. -/
inductive LengthRefusal (min max length left : Nat) : DecodeError → Prop
  | outside : ¬(min ≤ length ∧ length ≤ max) →
      LengthRefusal min max length left (.lengthOutOfBounds length min max)
  | missing : min ≤ length → length ≤ max → left < length →
      LengthRefusal min max length left (.truncatedInput length left)

theorem spells_iff {text content : Bytes} : Spells min max text content ↔
    ∃ front length, Varint.read front = .ok (length, []) ∧ min ≤ length.toNat ∧
      length.toNat ≤ max ∧ content.length = length.toNat ∧ front ++ content = text := by
  simp only [Varint.read_eq_ok_nil_iff]
  constructor
  · intro h
    cases h with
    | intro hFront hLength hMin hMax =>
        exact ⟨_, _, hFront, hLength ▸ hMin, hLength ▸ hMax, hLength, rfl⟩
  · rintro ⟨front, length, hFront, hMin, hMax, hLength, rfl⟩
    exact .intro hFront hLength (hLength ▸ hMin) (hLength ▸ hMax)

theorem refusal_iff {error : DecodeError} :
    Refusal min max (.lengthOutOfBounds · min max) input error ↔
      Varint.Refusal input error ∨ ∃ front length, Announces input front length ∧
        LengthRefusal min max length.toNat (input.length - front.length) error := by
  have left : ∀ front rest : Bytes, (front ++ rest).length - front.length = rest.length := by
    simp
  constructor
  · intro h
    cases h with
    | number unreadable => exact .inl unreadable
    | @outside front rest length hFront outside =>
        have hRead := Varint.read_eq_ok_nil_iff.mpr hFront
        exact .inr ⟨front, length, ⟨hRead, List.prefix_append front rest⟩, .outside outside⟩
    | @cut front rest length hFront hMin hMax short =>
        have hRead := Varint.read_eq_ok_nil_iff.mpr hFront
        refine .inr ⟨front, length, ⟨hRead, List.prefix_append front rest⟩, ?_⟩
        rw [left]
        exact .missing hMin hMax short
  · rintro (unreadable | ⟨front, length, ⟨hRead, rest, rfl⟩, refused⟩)
    · exact .number unreadable
    · have hFront := Varint.read_eq_ok_nil_iff.mp hRead
      rw [left] at refused
      cases refused with
      | outside outside => exact .outside hFront outside
      | missing hMin hMax short => exact .cut hFront hMin hMax short

theorem run_eq_ok_iff {cursor advanced : Cursor} {content : Bytes} :
    cursor.run (read min max) = (.ok content, advanced) ↔
      ∃ front length, Varint.read front = .ok (length, []) ∧ min ≤ length.toNat ∧
        length.toNat ≤ max ∧ content.length = length.toNat ∧ front ++ content <+: cursor.rest ∧
        advanced = { cursor with
          position := cursor.position + (front.length + content.length) } := by
  rw [(reads_read min max).run_eq_ok_iff]
  constructor
  · rintro ⟨text, hText, hPrefix, rfl⟩
    rcases spells_iff.mp hText with ⟨front, length, hRead, hMin, hMax, hLength, rfl⟩
    exact ⟨front, length, hRead, hMin, hMax, hLength, hPrefix, by rw [List.length_append]⟩
  · rintro ⟨front, length, hRead, hMin, hMax, hLength, hPrefix, rfl⟩
    have hText := spells_iff.mpr ⟨front, length, hRead, hMin, hMax, hLength, rfl⟩
    exact ⟨front ++ content, hText, hPrefix, by rw [List.length_append]⟩

theorem run_eq_error_iff {cursor advanced : Cursor} {error : DecodeError} :
    cursor.run (read min max) = (.error error, advanced) ↔
      (cursor.run Varint.read = (.error error, cursor) ∨
        ∃ front length, Announces cursor.rest front length ∧
          LengthRefusal min max length.toNat (cursor.remaining - front.length) error) ∧
      advanced = cursor := by
  rw [(refuses_read min max).run_eq_error_iff, refusal_iff, cursor.length_rest,
    Varint.refuses_read.run_eq_error_iff, and_iff_left rfl]

theorem run_of_outside {length : UInt64} (hRead : Varint.read front = .ok (length, []))
    (outside : ¬(min ≤ length.toNat ∧ length.toNat ≤ max)) {cursor : Cursor}
    (hPrefix : front <+: cursor.rest) :
    cursor.run (read min max) = (.error (.lengthOutOfBounds length.toNat min max), cursor) :=
  run_eq_error_iff.mpr ⟨.inr ⟨front, length, ⟨hRead, hPrefix⟩, .outside outside⟩, rfl⟩

/-- Whatever the bounds are, a byte string is read where a length within them stands in front of as
many bytes. Everything else fails and leaves the place alone: as the number fails, or for a length
out of bounds, or for the bytes that are missing behind the length. Of a length out of bounds nothing
but its own bytes counts. A machine that moves its place by hand and narrows the length to a word
does the same, and the length always fits the word. -/
theorem run_read_exact (min max : Nat) :
    (∀ (cursor advanced : Cursor) (content : Bytes),
      cursor.run (read min max) = (.ok content, advanced) ↔
        ∃ front length, Varint.read front = .ok (length, []) ∧ min ≤ length.toNat ∧
          length.toNat ≤ max ∧ content.length = length.toNat ∧ front ++ content <+: cursor.rest ∧
          advanced = { cursor with
            position := cursor.position + (front.length + content.length) }) ∧
    (∀ (cursor advanced : Cursor) (error : DecodeError),
      cursor.run (read min max) = (.error error, advanced) ↔
        (cursor.run Varint.read = (.error error, cursor) ∨
          ∃ front length, Announces cursor.rest front length ∧
            LengthRefusal min max length.toNat (cursor.remaining - front.length) error) ∧
        advanced = cursor) ∧
    (∀ (front : Bytes) (length : UInt64), Varint.read front = .ok (length, []) →
      ¬(min ≤ length.toNat ∧ length.toNat ≤ max) → ∀ cursor : Cursor, front <+: cursor.rest →
        cursor.run (read min max) = (.error (.lengthOutOfBounds length.toNat min max), cursor)) ∧
    ∀ size, Varint.maxBytes < size → max < size → ∀ cursor : Cursor, cursor.InRange size →
      Machine.varBytes size min max cursor = some (cursor.run (read min max)) := by
  refine ⟨fun _ _ _ => run_eq_ok_iff, fun _ _ _ => run_eq_error_iff,
    fun _ _ hRead outside _ => run_of_outside hRead outside, ?_⟩
  intro size hSize hMax cursor hPlace
  exact Machine.varBytes_performs hSize min hMax hPlace

/-- The greatest length of all, under bounds that no length meets. -/
theorem run_read_exact_greatest :
    let front : Bytes := List.replicate 9 0xFF ++ [0x01]
    let cursor : Cursor := ⟨0x07 :: front ++ [0xAA], 1⟩
    let length : UInt64 := 0xFFFFFFFFFFFFFFFF
    Varint.read front = .ok (length, []) ∧ ¬(5 ≤ length.toNat ∧ length.toNat ≤ 3) ∧
    front <+: cursor.rest ∧ Varint.maxBytes < UInt64.size ∧ 3 < UInt64.size ∧
    cursor.InRange UInt64.size ∧
    cursor.run (read 5 3) = (.error (.lengthOutOfBounds length.toNat 5 3), cursor) ∧
    Machine.varBytes UInt64.size 5 3 cursor = some (cursor.run (read 5 3)) := by
  intro front cursor length
  have hRead : Varint.read front = .ok (length, []) := by decide
  have outside : ¬(5 ≤ length.toNat ∧ length.toNat ≤ 3) := by decide
  have hPrefix : front <+: cursor.rest := List.prefix_append front [0xAA]
  have hSize : Varint.maxBytes < UInt64.size := by decide
  have hMax : 3 < UInt64.size := by decide
  have hPlace : cursor.InRange UInt64.size := ⟨by decide, by decide⟩
  obtain ⟨_, _, refused, performed⟩ := run_read_exact 5 3
  exact ⟨hRead, outside, hPrefix, hSize, hMax, hPlace,
    refused front length hRead outside cursor hPrefix,
    performed UInt64.size hSize hMax cursor hPlace⟩

/-- Two bytes are left behind a length of two bytes, and not four. -/
example : (Cursor.ofBytes [0x85, 0x00, 0x61, 0x62]).run (read 0 10) =
    (.error (.truncatedInput 5 2), .ofBytes [0x85, 0x00, 0x61, 0x62]) := by cbv

end Timestamping.VarBytes
