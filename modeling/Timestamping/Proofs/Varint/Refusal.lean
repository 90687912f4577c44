import Timestamping.Proofs.Refusal
import Timestamping.Proofs.Varint.Spelling
import Timestamping.Wire.VarBytes

/-!
What is no integer and no byte string. An integer breaks off while each byte says that another
follows, or its tenth byte says more than 64 bits can hold. A byte string is refused for its length
before anything behind the length is looked at. Main statement: these are all the refusals, and what
each of them counts.
-/

namespace Timestamping

namespace Varint

/-- Every byte says that another follows. -/
def Unended (text : Bytes) : Prop :=
  ∀ byte ∈ text, 128 ≤ byte.toNat

/-- The tenth byte decides what nine others have left open: its value is looked at before it is
asked whether another byte follows. -/
inductive Refusal : Refusals
  | cut {input : Bytes} : Unended input → input.length < maxBytes →
      Refusal input (.truncatedInput (input.length + 1) input.length)
  | overflow {front rest : Bytes} {byte : UInt8} : Unended front → front.length + 1 = maxBytes →
      1 < byte.toNat % 128 → Refusal (front ++ byte :: rest) (.malformedVarint .overflow)
  | tooLong {front rest : Bytes} {byte : UInt8} : Unended front → front.length + 1 = maxBytes →
      byte.toNat % 128 ≤ 1 → 128 ≤ byte.toNat →
      Refusal (front ++ byte :: rest) (.malformedVarint .tooLong)

theorem one_lt_group_iff (byte : UInt8) : 1 < group byte ↔ 1 < byte.toNat % 128 := by
  rw [UInt64.lt_iff_toNat_lt, toNat_group]
  rfl

/-- Bytes that all ask for another are taken in, as long as a tenth can still come. -/
theorem Unended.exists_readGroups_append {front : Bytes} (h : Unended front) (index : Nat)
    (value : UInt64) (hIndex : index + front.length < maxBytes) (rest : Bytes) :
    ∃ total, readGroups index value (front ++ rest) =
      readGroups (index + front.length) total rest := by
  induction front generalizing index value with
  | nil => exact ⟨value, rfl⟩
  | cons byte front ih =>
      obtain ⟨large, hFront⟩ := List.forall_mem_cons.mp h
      rw [List.length_cons] at hIndex
      have notLast : ¬index + 1 = maxBytes := by omega
      rcases ih hFront (index + 1)
        (value ||| group byte <<< UInt64.ofNat (7 * index)) (by omega) with ⟨total, hTotal⟩
      refine ⟨total, ?_⟩
      rw [List.cons_append, readGroups, if_neg (fun last => notLast last.1),
        if_pos ((continues_iff byte).mpr large), if_neg notLast, hTotal, List.length_cons,
        Nat.add_assoc, Nat.add_comm 1]

theorem Unended.exists_read_append {front : Bytes} (h : Unended front)
    (hFront : front.length < maxBytes) (rest : Bytes) :
    ∃ total, read (front ++ rest) = readGroups front.length total rest := by
  have hTotal := h.exists_readGroups_append 0 0 (by omega) rest
  rw [Nat.zero_add] at hTotal
  exact hTotal

theorem Unended.refusal_of_readGroups {front : Bytes} (h : Unended front)
    (hFront : front.length < maxBytes) {value : UInt64} {input : Bytes} {error : DecodeError}
    (hError : readGroups front.length value input = .error error) :
    Refusal (front ++ input) error := by
  -- The bytes that were read are kept in front, so the refusal is one of the whole input.
  induction input generalizing front value with
  | nil =>
      cases hError
      rw [List.append_nil]
      exact .cut h hFront
  | cons byte tail ih =>
      rw [readGroups] at hError
      split at hError
      · rename_i exceeds
        cases hError
        exact .overflow h exceeds.1 ((one_lt_group_iff byte).mp exceeds.2)
      · rename_i inRange
        split at hError
        · rename_i goesOn
          have large := (continues_iff byte).mp goesOn
          split at hError
          · rename_i last
            cases hError
            have small : byte.toNat % 128 ≤ 1 :=
              Nat.not_lt.mp fun exceeds => inRange ⟨last, (one_lt_group_iff byte).mpr exceeds⟩
            exact .tooLong h last small large
          · rename_i notLast
            have hNext : Unended (front ++ [byte]) :=
              List.forall_mem_append.mpr ⟨h, List.forall_mem_singleton.mpr large⟩
            have hLength : (front ++ [byte]).length = front.length + 1 := by simp
            rw [← hLength] at hError
            rw [List.append_cons]
            exact ih hNext (by omega) hError
        · cases hError

theorem refuses_read : read.Refuses Refusal := by
  intro input error
  constructor
  · intro h
    have empty : Unended [] := nofun
    exact empty.refusal_of_readGroups (by decide) h
  · intro h
    cases h with
    | cut unended short =>
        rcases unended.exists_read_append short [] with ⟨total, hTotal⟩
        rw [List.append_nil] at hTotal
        rw [hTotal, readGroups]
    | @overflow front rest byte unended hLength exceeds =>
        rcases unended.exists_read_append (by omega) (byte :: rest) with ⟨total, hTotal⟩
        rw [hTotal, readGroups, if_pos ⟨hLength, (one_lt_group_iff byte).mpr exceeds⟩]
    | @tooLong front rest byte unended hLength small large =>
        rcases unended.exists_read_append (by omega) (byte :: rest) with ⟨total, hTotal⟩
        have inRange : ¬1 < group byte := mt (one_lt_group_iff byte).mp (Nat.not_lt.mpr small)
        rw [hTotal, readGroups, if_neg (fun exceeds => inRange exceeds.2),
          if_pos ((continues_iff byte).mpr large), if_pos hLength]

end Varint

namespace VarBytes

/-- A byte string whose length is to lie within bounds: without a length that can be read, with one
that lies `outside`, or with one that asks for more bytes than follow it. -/
inductive Refusal (min max : Nat) (outside : Nat → DecodeError) : Refusals
  | number {input : Bytes} {error : DecodeError} : Varint.Refusal input error →
      Refusal min max outside input error
  | outside {front rest : Bytes} {length : UInt64} : Varint.Spells front length →
      ¬(min ≤ length.toNat ∧ length.toNat ≤ max) →
      Refusal min max outside (front ++ rest) (outside length.toNat)
  | cut {front rest : Bytes} {length : UInt64} : Varint.Spells front length →
      min ≤ length.toNat → length.toNat ≤ max → rest.length < length.toNat →
      Refusal min max outside (front ++ rest) (.truncatedInput length.toNat rest.length)

theorem refuses_read (min max : Nat) :
    (read min max).Refuses (Refusal min max (.lengthOutOfBounds · min max)) := by
  apply (Varint.refuses_read.bind Varint.reads_read fun length =>
    (Reader.refuses_bytes length.toNat).guard _).congr
  intro input error
  constructor
  · intro h
    rcases h with unreadable | ⟨front, length, rest, hFront, refused, rfl⟩
    · exact .number unreadable
    · rcases refused with ⟨⟨hMin, hMax⟩, short, rfl⟩ | ⟨outside, rfl⟩
      · exact .cut hFront hMin hMax short
      · exact .outside hFront outside
  · intro h
    cases h with
    | number unreadable => exact .inl unreadable
    | outside hFront outside => exact .inr ⟨_, _, _, hFront, .inr ⟨outside, rfl⟩, rfl⟩
    | cut hFront hMin hMax short =>
        exact .inr ⟨_, _, _, hFront, .inl ⟨⟨hMin, hMax⟩, short, rfl⟩, rfl⟩

/-- The same, when a length out of bounds is said in other words and every other error as it is. -/
theorem refuses_read_mapError (min max : Nat) (describe : DecodeError → DecodeError)
    (hTruncated : ∀ needed remaining,
      describe (.truncatedInput needed remaining) = .truncatedInput needed remaining)
    (hMalformed : ∀ fault, describe (.malformedVarint fault) = .malformedVarint fault) :
    ((read min max).mapError describe).Refuses
      (Refusal min max fun length => describe (.lengthOutOfBounds length min max)) := by
  have unchanged : ∀ {input error}, Varint.Refusal input error → describe error = error := by
    intro input error h
    cases h with
    | cut _ _ => exact hTruncated _ _
    | overflow _ _ _ => exact hMalformed _
    | tooLong _ _ _ _ => exact hMalformed _
  apply ((refuses_read min max).mapError describe).congr
  intro input error
  constructor
  · intro h
    rcases h with ⟨cause, refused, rfl⟩
    cases refused with
    | number unreadable => exact .number ((unchanged unreadable).symm ▸ unreadable)
    | outside hFront outside => exact .outside hFront outside
    | cut hFront hMin hMax short =>
        rw [hTruncated]
        exact .cut hFront hMin hMax short
  · intro h
    cases h with
    | number unreadable => exact ⟨_, .number unreadable, unchanged unreadable⟩
    | outside hFront outside => exact ⟨_, .outside hFront outside, rfl⟩
    | cut hFront hMin hMax short => exact ⟨_, .cut hFront hMin hMax short, hTruncated _ _⟩

end VarBytes

end Timestamping
