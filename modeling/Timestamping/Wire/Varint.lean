import Timestamping.Wire.Reader

/-!
Integers of variable length. A 64-bit number is cut into groups of seven bits, the least significant
first; each group is one byte, and the high bit of a byte says that another follows. Reading accepts
groups of zeros at the end, writing makes none.
-/

namespace Timestamping.Varint

/-- The tenth group holds the last of 64 bits. -/
def maxBytes : Nat := 10

def continues (byte : UInt8) : Bool :=
  byte &&& 0x80 != 0

def group (byte : UInt8) : UInt64 :=
  (byte &&& 0x7F).toUInt64

/-- Reads the groups from number `index` on; `value` has the bits of those before. All earlier
bytes are still counted as remaining when the input ends here. -/
def readGroups (index : Nat) (value : UInt64) : Reader UInt64
  | [] => .error (.truncatedInput (index + 1) index)
  | byte :: rest =>
      let last := index + 1 = maxBytes
      if last ∧ 1 < group byte then .error (.malformedVarint .overflow)
      else
        let total := value ||| group byte <<< UInt64.ofNat (7 * index)
        if continues byte then
          if last then .error (.malformedVarint .tooLong) else readGroups (index + 1) total rest
        else .ok (total, rest)

def read : Reader UInt64 :=
  readGroups 0 0

private theorem shiftRight_lt {number : UInt64} (large : 0x80 ≤ number) :
    (number >>> 7).toNat < number.toNat := by
  have bound : 128 ≤ number.toNat := UInt64.le_iff_toNat_le.mp large
  rw [UInt64.toNat_shiftRight]
  change number.toNat >>> 7 < number.toNat
  rw [Nat.shiftRight_eq_div_pow]
  omega

private theorem readGroups_suffix {index : Nat} {before value : UInt64} {input rest : Bytes}
    (h : readGroups index before input = .ok (value, rest)) : rest <:+ input := by
  induction input generalizing index before with
  | nil => cases h
  | cons byte tail ih =>
      rw [readGroups] at h
      split at h
      · cases h
      · split at h
        · split at h
          · cases h
          · exact (ih h).trans (List.suffix_cons byte tail)
        · cases h
          exact List.suffix_cons byte rest

theorem read_takesFront : read.TakesFront :=
  fun _ _ _ h => readGroups_suffix h

/-- The fewest groups that hold the number. -/
def encode (number : UInt64) : Bytes :=
  if 0x80 ≤ number then ((number.toUInt8 &&& 0x7F) ||| 0x80) :: encode (number >>> 7)
  else [number.toUInt8]
termination_by number.toNat
decreasing_by exact shiftRight_lt ‹0x80 ≤ number›

end Timestamping.Varint
