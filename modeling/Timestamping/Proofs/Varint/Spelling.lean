import Mathlib.Data.FinEnum
import Mathlib.Tactic.Ring
import Timestamping.Proofs.Language
import Timestamping.Wire.Varint

/-!
Spellings of a 64-bit number. A number has more than one: groups of zeros may stand at the end, up
to ten groups in all. Main statements: reading accepts exactly the spellings, and what is written is
the one spelling that no other undercuts.
-/

namespace Timestamping.Varint

/-- Groups of seven bits, the least significant first; every byte but the last has its high bit
set. The number is exact, so nothing is lost here however many groups there are. -/
inductive Groups : Language Nat
  | last {byte : UInt8} : byte.toNat < 128 → Groups [byte] byte.toNat
  | more {byte : UInt8} {text : Bytes} {value : Nat} : 128 ≤ byte.toNat → Groups text value →
      Groups (byte :: text) (byte.toNat % 128 + 128 * value)

/-- Complete groups, at most ten, whose value a 64-bit number holds. -/
structure Spells (text : Bytes) (number : UInt64) : Prop where
  groups : Groups text number.toNat
  length_le : text.length ≤ maxBytes

/-- No other spelling of the same number has fewer bytes. -/
def IsShortest (text : Bytes) : Prop :=
  ∀ other number, Spells text number → Spells other number → text.length ≤ other.length

/-! ### Bits of a byte -/

theorem toNat_group (byte : UInt8) : (group byte).toNat = byte.toNat % 128 := by
  rw [group, UInt8.toNat_toUInt64, UInt8.toNat_and]
  exact Nat.and_two_pow_sub_one_eq_mod byte.toNat 7

theorem continues_iff (byte : UInt8) : continues byte = true ↔ 128 ≤ byte.toNat := by
  revert byte
  decide +kernel

theorem group_fits {index : Nat} {byte : UInt8} (hIndex : index < maxBytes)
    (inRange : ¬(index + 1 = maxBytes ∧ 1 < group byte)) :
    128 ^ index * (byte.toNat % 128) < 2 ^ 64 := by
  have hSmall : byte.toNat % 128 < 128 := Nat.mod_lt _ (by decide)
  -- Nine groups take 63 bits: the tenth may hold one bit only, any other fits as it is.
  by_cases last : index + 1 = maxBytes
  · have hGroup : ¬1 < group byte := fun large => inRange ⟨last, large⟩
    rw [UInt64.lt_iff_toNat_lt, toNat_group] at hGroup
    have hIndex : index = 9 := Nat.succ.inj last
    subst hIndex
    change ¬1 < byte.toNat % 128 at hGroup
    omega
  · have hEarly : index ≤ 8 := by
      change index < 10 at hIndex
      change ¬index + 1 = 10 at last
      omega
    have hPower : 128 ^ index ≤ 128 ^ 8 := Nat.pow_le_pow_right (by decide) hEarly
    calc 128 ^ index * (byte.toNat % 128)
        ≤ 128 ^ 8 * 127 := Nat.mul_le_mul hPower (Nat.le_of_lt_succ hSmall)
      _ < 2 ^ 64 := by decide

private theorem toNat_total {index : Nat} {before : UInt64} {byte : UInt8}
    (hIndex : index < maxBytes) (hBefore : before.toNat < 128 ^ index)
    (fits : 128 ^ index * (byte.toNat % 128) < 2 ^ 64) :
    (before ||| group byte <<< UInt64.ofNat (7 * index)).toNat =
      before.toNat + 128 ^ index * (byte.toNat % 128) := by
  have hPower : (128 : Nat) ^ index = 2 ^ (7 * index) := (Nat.pow_mul 2 7 index).symm
  have hShift : (UInt64.ofNat (7 * index)).toNat % 64 = 7 * index := by
    change index < 10 at hIndex
    rw [UInt64.toNat_ofNat']
    omega
  -- The bits of the group lie above all bits before it, so setting them adds.
  rw [hPower] at hBefore fits ⊢
  rw [UInt64.toNat_or, UInt64.toNat_shiftLeft, hShift, toNat_group, Nat.shiftLeft_eq, Nat.mul_comm,
    Nat.mod_eq_of_lt fits, Nat.or_comm, ← Nat.two_pow_add_eq_or_of_lt hBefore, Nat.add_comm]

private theorem inRange_of_fits {index : Nat} {byte : UInt8} (hIndex : index < maxBytes)
    (fits : 128 ^ index * byte.toNat < 2 ^ 64) :
    ¬(index + 1 = maxBytes ∧ 1 < group byte) := by
  intro h
  obtain ⟨last, large⟩ := h
  have hIndex : index = 9 := Nat.succ.inj last
  subst hIndex
  rw [UInt64.lt_iff_toNat_lt, toNat_group] at large
  change 1 < byte.toNat % 128 at large
  omega

private theorem total_lt {index before total : Nat} {byte : UInt8} (hBefore : before < 128 ^ index)
    (hTotal : total = before + 128 ^ index * (byte.toNat % 128)) : total < 128 ^ (index + 1) := by
  have hSmall : byte.toNat % 128 + 1 ≤ 128 := Nat.mod_lt _ (by decide)
  calc total = before + 128 ^ index * (byte.toNat % 128) := hTotal
    _ < 128 ^ index + 128 ^ index * (byte.toNat % 128) := Nat.add_lt_add_right hBefore _
    _ = 128 ^ index * (byte.toNat % 128 + 1) := by ring
    _ ≤ 128 ^ index * 128 := Nat.mul_le_mul_left _ hSmall
    _ = 128 ^ (index + 1) := (Nat.pow_succ 128 index).symm

/-! ### Reading -/

theorem Groups.length_pos {text : Bytes} {value : Nat} (h : Groups text value) :
    0 < text.length := by
  cases h with
  | last small => exact Nat.succ_pos _
  | more large tail => exact Nat.succ_pos _

/-- What is left of a spelling when the groups before number `index` say `before`. -/
def Remainder (index : Nat) (before : UInt64) : Language UInt64 := fun text number =>
  ∃ value, Groups text value ∧ number.toNat = before.toNat + 128 ^ index * value ∧
    index + text.length ≤ maxBytes

theorem remainder_of_readGroups {index : Nat} {before number : UInt64} {input rest : Bytes}
    (hIndex : index < maxBytes) (hBefore : before.toNat < 128 ^ index)
    (h : readGroups index before input = .ok (number, rest)) :
    ∃ text, Remainder index before text number ∧ text ++ rest = input := by
  induction input generalizing index before with
  | nil => cases h
  | cons byte tail ih =>
      rw [readGroups] at h
      split at h
      · cases h
      · rename_i inRange
        have fits := group_fits hIndex inRange
        have hTotal := toNat_total hIndex hBefore fits
        split at h
        · rename_i goesOn
          split at h
          · cases h
          · rename_i notLast
            have hNext : index + 1 < maxBytes := Nat.lt_of_le_of_ne hIndex notLast
            rcases ih hNext (total_lt hBefore hTotal) h with
              ⟨text, ⟨value, groups, hNumber, hLength⟩, hInput⟩
            refine ⟨byte :: text, ⟨byte.toNat % 128 + 128 * value, ?_, ?_, ?_⟩, ?_⟩
            · exact .more ((continues_iff byte).mp goesOn) groups
            · rw [hNumber, hTotal, Nat.pow_succ]
              ring
            · rw [List.length_cons]
              omega
            · rw [List.cons_append, hInput]
        · rename_i ends
          cases h
          have small : byte.toNat < 128 := Nat.not_le.mp (mt (continues_iff byte).mpr ends)
          refine ⟨[byte], ⟨byte.toNat, .last small, ?_, hIndex⟩, rfl⟩
          rw [hTotal, Nat.mod_eq_of_lt small]

theorem Groups.readGroups_append {text : Bytes} {value : Nat} (groups : Groups text value)
    {index : Nat} {before number : UInt64} (hBefore : before.toNat < 128 ^ index)
    (hNumber : number.toNat = before.toNat + 128 ^ index * value)
    (hLength : index + text.length ≤ maxBytes) (rest : Bytes) :
    readGroups index before (text ++ rest) = .ok (number, rest) := by
  -- The groups that are still to come are read on top of those that were read, so the induction
  -- is on them and leaves `index` and `before` free.
  induction groups generalizing index before with
  | @last byte small =>
      have hIndex : index < maxBytes := hLength
      have inRange := inRange_of_fits hIndex (Nat.lt_of_le_of_lt
        (Nat.le_add_left _ before.toNat) (hNumber ▸ number.toNat_lt))
      have hTotal := toNat_total hIndex hBefore (group_fits hIndex inRange)
      rw [Nat.mod_eq_of_lt small, ← hNumber] at hTotal
      have ends : ¬continues byte = true := mt (continues_iff byte).mp (Nat.not_le.mpr small)
      rw [List.singleton_append, readGroups, if_neg inRange, if_neg ends,
        UInt64.toNat_inj.mp hTotal]
  | @more byte text value large groups ih =>
      have hPos := groups.length_pos
      rw [List.length_cons] at hLength
      have hIndex : index < maxBytes := by omega
      have notLast : ¬index + 1 = maxBytes := by omega
      have inRange : ¬(index + 1 = maxBytes ∧ 1 < group byte) := fun h => notLast h.1
      have hTotal := toNat_total hIndex hBefore (group_fits hIndex inRange)
      rw [List.cons_append, readGroups, if_neg inRange,
        if_pos ((continues_iff byte).mpr large), if_neg notLast]
      apply ih (total_lt hBefore hTotal)
      · rw [hNumber, hTotal, Nat.pow_succ]
        ring
      · omega

theorem reads_readGroups {index : Nat} {before : UInt64} (hIndex : index < maxBytes)
    (hBefore : before.toNat < 128 ^ index) :
    (readGroups index before).Reads (Remainder index before) := by
  intro input number rest
  constructor
  · exact remainder_of_readGroups hIndex hBefore
  · intro h
    rcases h with ⟨text, ⟨value, groups, hNumber, hLength⟩, rfl⟩
    exact groups.readGroups_append hBefore hNumber hLength rest

theorem reads_read : read.Reads Spells := by
  apply (reads_readGroups (by decide) (by decide)).congr
  intro text number
  constructor
  · intro h
    obtain ⟨value, groups, hNumber, hLength⟩ := h
    have same : number.toNat = value := by
      rw [hNumber]
      exact (Nat.zero_add _).trans (Nat.one_mul value)
    exact ⟨same ▸ groups, Nat.zero_add text.length ▸ hLength⟩
  · intro h
    refine ⟨number.toNat, h.groups, ?_, ?_⟩
    · exact ((Nat.zero_add _).trans (Nat.one_mul number.toNat)).symm
    · rw [Nat.zero_add]
      exact h.length_le

/-! ### Writing -/

private theorem toNat_continued (byte : UInt8) :
    ((byte &&& 0x7F) ||| 0x80).toNat = byte.toNat % 128 + 128 := by
  revert byte
  decide +kernel

theorem toNat_shiftRight (number : UInt64) : (number >>> 7).toNat = number.toNat / 128 := by
  rw [UInt64.toNat_shiftRight]
  exact Nat.shiftRight_eq_div_pow number.toNat 7

theorem encode_of_lt {number : UInt64} (small : number.toNat < 128) :
    encode number = [UInt8.ofNat number.toNat] := by
  rw [encode, if_neg]
  · rfl
  · intro large
    have hLarge : 128 ≤ number.toNat := UInt64.le_iff_toNat_le.mp large
    omega

theorem encode_of_le {number : UInt64} (large : 128 ≤ number.toNat) :
    encode number = UInt8.ofNat (number.toNat % 128 + 128) :: encode (number >>> 7) := by
  have hByte : (number.toUInt8 &&& 0x7F) ||| 0x80 = UInt8.ofNat (number.toNat % 128 + 128) := by
    apply UInt8.toNat_inj.mp
    rw [toNat_continued, UInt64.toNat_toUInt8, UInt8.toNat_ofNat']
    omega
  have hLarge : (0x80 : UInt64) ≤ number := UInt64.le_iff_toNat_le.mpr large
  rw [encode, if_pos hLarge, hByte]

theorem groups_encode (number : UInt64) : Groups (encode number) number.toNat := by
  induction h : number.toNat using Nat.strongRecOn generalizing number with
  | ind value ih =>
      subst h
      by_cases small : number.toNat < 128
      · have hByte : (UInt8.ofNat number.toNat).toNat = number.toNat := by
          rw [UInt8.toNat_ofNat']
          omega
        have groups := Groups.last (hByte.trans_lt small)
        rw [hByte] at groups
        rw [encode_of_lt small]
        exact groups
      · have large : 128 ≤ number.toNat := Nat.not_lt.mp small
        have hByte : (UInt8.ofNat (number.toNat % 128 + 128)).toNat = number.toNat % 128 + 128 := by
          rw [UInt8.toNat_ofNat']
          omega
        have tail := ih _ (by rw [toNat_shiftRight]; omega) (number >>> 7) rfl
        have groups := Groups.more (hByte ▸ Nat.le_add_left 128 _) tail
        have hValue : (number.toNat % 128 + 128) % 128 + 128 * (number.toNat / 128) =
            number.toNat := by omega
        rw [hByte, toNat_shiftRight, hValue] at groups
        rw [encode_of_le large]
        exact groups

theorem Groups.value_lt {text : Bytes} {value : Nat} (groups : Groups text value) :
    value < 128 ^ text.length := by
  induction groups with
  | last small => exact small
  | @more byte text value large groups ih =>
      have hGroup : byte.toNat % 128 < 128 := Nat.mod_lt _ (by decide)
      rw [List.length_cons, Nat.pow_succ]
      omega

theorem length_encode_le_iff (number : UInt64) (count : Nat) :
    (encode number).length ≤ count + 1 ↔ number.toNat < 128 ^ (count + 1) := by
  induction count generalizing number with
  | zero =>
      by_cases small : number.toNat < 128
      · simp only [encode_of_lt small, List.length_singleton, Nat.le_refl, true_iff]
        exact small
      · have hPos := (groups_encode (number >>> 7)).length_pos
        rw [encode_of_le (Nat.not_lt.mp small), List.length_cons]
        omega
  | succ count ih =>
      by_cases small : number.toNat < 128
      · have hPower : 128 ^ 1 ≤ 128 ^ (count + 1 + 1) := Nat.pow_le_pow_right (by decide) (by omega)
        rw [encode_of_lt small, List.length_singleton]
        omega
      · rw [encode_of_le (Nat.not_lt.mp small), List.length_cons, Nat.add_le_add_iff_right, ih,
          toNat_shiftRight, Nat.pow_succ]
        omega

theorem length_encode_le {text : Bytes} {value : Nat} (groups : Groups text value)
    {number : UInt64} (hNumber : number.toNat ≤ value) :
    (encode number).length ≤ text.length := by
  have hLength : text.length - 1 + 1 = text.length := Nat.succ_pred_eq_of_pos groups.length_pos
  rw [← hLength, length_encode_le_iff, hLength]
  exact Nat.lt_of_le_of_lt hNumber groups.value_lt

theorem spells_encode (number : UInt64) : Spells (encode number) number := by
  refine ⟨groups_encode number, (length_encode_le_iff number 9).mpr ?_⟩
  exact Nat.lt_of_lt_of_le number.toNat_lt (by decide)

/-! ### The shortest spelling -/

/-- A byte that goes on is the first that is written for its number, unless the number ends there. -/
theorem encode_eq_cons {byte : UInt8} (large : 128 ≤ byte.toNat) {number : UInt64} {value : Nat}
    (hNumber : number.toNat = byte.toNat % 128 + 128 * value) (goesOn : 128 ≤ number.toNat) :
    encode number = byte :: encode (number >>> 7) ∧ (number >>> 7).toNat = value := by
  have hBound := byte.toNat_lt
  have hHead : byte = UInt8.ofNat (number.toNat % 128 + 128) := by
    apply UInt8.toNat_inj.mp
    rw [UInt8.toNat_ofNat']
    omega
  constructor
  · rw [encode_of_le goesOn, ← hHead]
  · rw [toNat_shiftRight]
    omega

/-- Groups of a number that are no more than are written for it are those that are written. -/
theorem Groups.eq_encode {text : Bytes} {value : Nat} (groups : Groups text value) :
    ∀ number : UInt64, number.toNat = value → text.length ≤ (encode number).length →
      text = encode number := by
  induction groups with
  | @last byte small =>
      intro number hNumber _
      rw [encode_of_lt (hNumber ▸ small), hNumber, UInt8.ofNat_toNat]
  | @more byte text value large groups ih =>
      intro number hNumber hLength
      by_cases small : number.toNat < 128
      · have hPos := groups.length_pos
        rw [encode_of_lt small, List.length_cons, List.length_singleton] at hLength
        omega
      · obtain ⟨hEncode, hValue⟩ := encode_eq_cons large hNumber (Nat.not_lt.mp small)
        rw [hEncode] at hLength ⊢
        rw [← ih _ hValue (Nat.le_of_succ_le_succ hLength)]

theorem Groups.value_unique {text : Bytes} {first second : Nat} (hFirst : Groups text first)
    (hSecond : Groups text second) : first = second := by
  induction hFirst generalizing second with
  | last small =>
      cases hSecond with
      | last => rfl
      | more large tail => cases tail
  | more large tail ih =>
      cases hSecond with
      | last small => cases tail
      | more large other => rw [ih other]

theorem Spells.number_unique {text : Bytes} {first second : UInt64} (hFirst : Spells text first)
    (hSecond : Spells text second) : first = second :=
  UInt64.toNat_inj.mp (hFirst.groups.value_unique hSecond.groups)

theorem Spells.isShortest_iff {text : Bytes} {number : UInt64} (h : Spells text number) :
    IsShortest text ↔ text = encode number := by
  constructor
  · intro shortest
    exact h.groups.eq_encode number rfl (shortest _ _ h (spells_encode number))
  · intro same other second hText hOther
    have hNumber := hText.number_unique h
    subst hNumber
    rw [same]
    exact length_encode_le hOther.groups (Nat.le_refl _)

end Timestamping.Varint
