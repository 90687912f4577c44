import Mathlib.Algebra.Order.Floor.Div
import Mathlib.Data.Nat.Size
import Timestamping.Proofs.Machine.Writer

/-!
The spelling that is written. It has a byte for every seven bits of the number, and one where the
number has no bits at all. Main statement: it is the shortest spelling, and the only one of its
length; all others are the same bytes with a last byte that goes on into groups of zeros.
-/

namespace Timestamping.Varint

/-- The bytes of `text`, the last of which goes on into so many groups of zeros and one more. -/
inductive PaddedBy (count : Nat) : Bytes → Bytes → Prop
  | intro {front : Bytes} {last : UInt8} :
      PaddedBy count (front ++ [last])
        (front ++ (last ||| 0x80) :: (List.replicate count 0x80 ++ [0x00]))

/-! ### Length -/

theorem length_encode (number : UInt64) :
    (encode number).length = max 1 (number.toNat.size ⌈/⌉ 7) := by
  have hPos := (groups_encode number).length_pos
  apply eq_of_forall_ge_iff
  intro count
  cases count with
  | zero =>
      refine iff_of_false (by omega) ?_
      exact Nat.not_le.mpr (Nat.lt_of_lt_of_le Nat.one_pos (Nat.le_max_left _ _))
  | succ count =>
      have hPower : (128 : Nat) ^ (count + 1) = 2 ^ (7 * (count + 1)) := Nat.pow_mul 2 7 _ ▸ rfl
      have hOne : 1 ≤ count + 1 := Nat.succ_pos count
      rw [length_encode_le_iff, hPower, ← Nat.size_le, max_le_iff, and_iff_right hOne,
        ceilDiv_le_iff_le_mul (by decide)]

theorem length_encode_mono {first second : UInt64} (h : first ≤ second) :
    (encode first).length ≤ (encode second).length :=
  length_encode_le (groups_encode second) (UInt64.le_iff_toNat_le.mp h)

/-! ### The last byte -/

theorem exists_getLast?_encode {number : UInt64} (hPos : 0 < number.toNat) :
    ∃ last, (encode number).getLast? = some last ∧ last ≠ 0 := by
  induction h : number.toNat using Nat.strongRecOn generalizing number with
  | ind value ih =>
      subst h
      by_cases small : number.toNat < 128
      · refine ⟨UInt8.ofNat number.toNat, by rw [encode_of_lt small]; rfl, ?_⟩
        intro zero
        have hByte := congrArg UInt8.toNat zero
        rw [UInt8.toNat_ofNat'] at hByte
        change number.toNat % 256 = 0 at hByte
        omega
      · have hShift := toNat_shiftRight number
        have smaller : (number >>> 7).toNat < number.toNat := by omega
        rcases ih _ smaller (by omega) rfl with ⟨last, hLast, nonzero⟩
        refine ⟨last, ?_, nonzero⟩
        rw [encode_of_le (Nat.not_lt.mp small), List.getLast?_cons, hLast]
        rfl

/-- Only nought is written with nothing but zeros in its last group. -/
theorem encode_ends (number : UInt64) : (encode number).length = 1 ∨
    ∃ last, (encode number).getLast? = some last ∧ last ≠ 0 := by
  by_cases hPos : 0 < number.toNat
  · exact .inr (exists_getLast?_encode hPos)
  · refine .inl ?_
    rw [encode_of_lt (by omega), List.length_singleton]

theorem PaddedBy.length_lt {count : Nat} {text padded : Bytes} (h : PaddedBy count text padded) :
    text.length < padded.length := by
  cases h
  simp only [List.length_append, List.length_cons, List.length_replicate, List.length_nil]
  omega

theorem PaddedBy.getLast? {count : Nat} {text padded : Bytes} (h : PaddedBy count text padded) :
    padded.getLast? = some 0 := by
  cases h
  rw [List.getLast?_append, List.getLast?_cons, List.getLast?_append]
  rfl

/-! ### Padding -/

theorem PaddedBy.cons {count : Nat} {text padded : Bytes} (h : PaddedBy count text padded)
    (byte : UInt8) : PaddedBy count (byte :: text) (byte :: padded) := by
  cases h with
  | @intro front last => exact @PaddedBy.intro count (byte :: front) last

theorem Groups.eq_zeros {text : Bytes} {value : Nat} (h : Groups text value) (zero : value = 0) :
    ∃ count, text = List.replicate count 0x80 ++ [0x00] := by
  induction h with
  | @last byte small =>
      have hByte : byte = 0 := UInt8.toNat_inj.mp zero
      exact ⟨0, by rw [hByte]; rfl⟩
  | @more byte text value large tail ih =>
      have hByte : byte = 0x80 := by
        have hBound := byte.toNat_lt
        apply UInt8.toNat_inj.mp
        change byte.toNat = 128
        omega
      rcases ih (by omega) with ⟨count, rfl⟩
      exact ⟨count + 1, by rw [hByte]; rfl⟩

theorem or_high_eq {byte : UInt8} (large : 128 ≤ byte.toNat) :
    UInt8.ofNat (byte.toNat % 128) ||| 0x80 = byte := by
  revert byte
  decide +kernel

/-- The groups of a number are those that are written for it, or these with padding behind. -/
theorem Groups.eq_encode_or_padded {text : Bytes} {value : Nat} (h : Groups text value) :
    ∀ number : UInt64, number.toNat = value →
      text = encode number ∨ ∃ count, PaddedBy count (encode number) text := by
  induction h with
  | @last byte small =>
      intro number hNumber
      left
      rw [encode_of_lt (hNumber ▸ small), hNumber, UInt8.ofNat_toNat]
  | @more byte text value large groups ih =>
      intro number hNumber
      by_cases small : number.toNat < 128
      · -- The number ends with this byte, so all that follows says nothing.
        rcases groups.eq_zeros (by omega) with ⟨count, rfl⟩
        have hByte : number.toNat = byte.toNat % 128 := by omega
        right
        refine ⟨count, ?_⟩
        rw [encode_of_lt small, hByte]
        have padded := @PaddedBy.intro count [] (UInt8.ofNat (byte.toNat % 128))
        rwa [or_high_eq large] at padded
      · obtain ⟨hEncode, hValue⟩ := encode_eq_cons large hNumber (Nat.not_lt.mp small)
        rw [hEncode]
        rcases ih _ hValue with same | ⟨count, padded⟩
        · exact .inl (congrArg (byte :: ·) same)
        · exact .inr ⟨count, padded.cons byte⟩

variable {text : Bytes} {number : UInt64}

theorem Spells.exists_paddedBy (h : Spells text number) (longer : text ≠ encode number) :
    ∃ count, PaddedBy count (encode number) text :=
  (h.groups.eq_encode_or_padded number rfl).resolve_left longer

theorem Spells.eq_encode_iff (h : Spells text number) :
    text = encode number ↔ text.length = 1 ∨ ∃ last, text.getLast? = some last ∧ last ≠ 0 := by
  constructor
  · intro same
    rw [same]
    exact encode_ends number
  · intro ends
    by_contra longer
    rcases h.exists_paddedBy longer with ⟨count, padded⟩
    rcases ends with single | ⟨last, hLast, nonzero⟩
    · have hPos := (groups_encode number).length_pos
      have hLength := padded.length_lt
      omega
    · rw [padded.getLast?] at hLast
      exact nonzero (Option.some.inj hLast).symm

theorem read_eq_ok_nil_iff : read text = .ok (number, []) ↔ Spells text number := by
  rw [reads_read]
  simp only [List.append_nil, exists_eq_right]

/-- A number is written in a byte for every seven of its bits, and read back from them. No other
spelling that is read as the number is as short: each is what is written, with padding behind. -/
theorem encode_unique_shortest (number : UInt64) :
    (∀ buffer : Buffer, Machine.Writer.varint number buffer = buffer.write (.varint number) ∧
      buffer.write (.varint number) = (.ok (), ⟨buffer.bytes ++ encode number⟩)) ∧
    (encode number).length = max 1 (number.toNat.size ⌈/⌉ 7) ∧
    (1 ≤ (encode number).length ∧ (encode number).length ≤ 10) ∧
    read (encode number) = .ok (number, []) ∧
    (∀ text, read text = .ok (number, []) →
      (encode number).length ≤ text.length ∧
      ((encode number).length = text.length ↔ text = encode number) ∧
      (text = encode number ↔
        text.length = 1 ∨ ∃ last, text.getLast? = some last ∧ last ≠ 0) ∧
      ((encode number).length < text.length → ∃ count, PaddedBy count (encode number) text)) ∧
    ∀ larger, number ≤ larger → (encode number).length ≤ (encode larger).length := by
  refine ⟨fun buffer => ⟨Machine.Writer.write_eq (.varint number) buffer, rfl⟩,
    length_encode number, ⟨(groups_encode number).length_pos, (spells_encode number).length_le⟩,
    read_eq_ok_nil_iff.mpr (spells_encode number), ?_, fun _ => length_encode_mono⟩
  intro text hRead
  have hText := read_eq_ok_nil_iff.mp hRead
  refine ⟨length_encode_le hText.groups (Nat.le_refl _), ?_, hText.eq_encode_iff, ?_⟩
  · constructor
    · intro sameLength
      exact hText.groups.eq_encode number rfl (Nat.le_of_eq sameLength.symm)
    · intro same
      rw [same]
  · intro longer
    apply hText.exists_paddedBy
    intro same
    rw [same] at longer
    exact absurd longer (Nat.lt_irrefl _)

/-- A thousand, padded by two groups of zeros. -/
example : read [0xE8, 0x87, 0x80, 0x00] = .ok (1000, []) := by decide

end Timestamping.Varint
