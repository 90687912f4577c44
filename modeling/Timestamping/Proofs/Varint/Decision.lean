import Mathlib.Algebra.BigOperators.Fin
import Timestamping.Proofs.Machine.Agreement

/-!
What every byte string says about a number at its front. The first byte that continues nothing ends
the number, if it comes in time; the tenth byte is special, for one bit is left to it. Main
statement: reading a number decides every input in one of four ways, each told by the bytes alone,
and the number that it gives is the exact sum of its groups.
-/

namespace Timestamping.Varint

/-- The groups of some bytes, each at its place, added up without any bound. -/
def groupSum (text : Bytes) : Nat :=
  ∑ index : Fin text.length, text[index].toNat % 128 * 2 ^ (7 * index.val)

/-- The first byte that asks for no other is at `last`, among the first ten. The tenth may add one
bit only. -/
structure HoldsNumber (input : Bytes) (last : Nat) : Prop where
  continued : Unended (input.take last)
  ends : ∃ byte, input[last]? = some byte ∧ byte.toNat < 128 ∧ (last = 9 → byte.toNat ≤ 1)
  last_le : last ≤ 9

/-- Nine bytes at most, none of which is the last. -/
def BreaksOff (input : Bytes) : Prop :=
  input.length ≤ 9 ∧ Unended input

/-- The tenth byte has bits that no number of 64 bits has. -/
def Overflows (input : Bytes) : Prop :=
  Unended (input.take 9) ∧ ∃ byte, input[9]? = some byte ∧ 1 < byte.toNat % 128

/-- The tenth byte could end a number, but asks for an eleventh. -/
def GoesOn (input : Bytes) : Prop :=
  Unended (input.take 9) ∧ (input[9]? = some 0x80 ∨ input[9]? = some 0x81)

/-! ### Sums of groups -/

theorem groupSum_cons (byte : UInt8) (text : Bytes) :
    groupSum (byte :: text) = byte.toNat % 128 + 128 * groupSum text := by
  unfold groupSum
  rw [Finset.mul_sum]
  refine (Fin.sum_univ_succ _).trans ?_
  congr 1
  · simp
  · apply Finset.sum_congr rfl
    intro index _
    have hPower : 2 ^ (7 * (index.val + 1)) = 128 * 2 ^ (7 * index.val) := by
      rw [Nat.mul_succ, Nat.pow_add, Nat.mul_comm]
    simp only [Fin.getElem_fin, Fin.val_succ, List.getElem_cons_succ, hPower]
    ring

theorem groupSum_append (front text : Bytes) :
    groupSum (front ++ text) = groupSum front + 128 ^ front.length * groupSum text := by
  induction front with
  | nil => simp [groupSum]
  | cons byte front ih =>
      rw [List.cons_append, groupSum_cons, groupSum_cons, ih, List.length_cons, Nat.pow_succ]
      ring

theorem groupSum_lt (text : Bytes) : groupSum text < 128 ^ text.length := by
  induction text with
  | nil => simp [groupSum]
  | cons byte text ih =>
      have hGroup : byte.toNat % 128 < 128 := Nat.mod_lt _ (by decide)
      rw [groupSum_cons, List.length_cons, Nat.pow_succ]
      omega

theorem Groups.value_eq {text : Bytes} {value : Nat} (h : Groups text value) :
    value = groupSum text := by
  induction h with
  | @last byte small =>
      rw [groupSum_cons, Nat.mod_eq_of_lt small]
      simp [groupSum]
  | more large tail ih => rw [groupSum_cons, ih]

theorem Groups.exists_unended {text : Bytes} {value : Nat} (h : Groups text value) :
    ∃ front byte, Unended front ∧ byte.toNat < 128 ∧ front ++ [byte] = text := by
  induction h with
  | @last byte small => exact ⟨[], byte, nofun, small, rfl⟩
  | @more byte text value large tail ih =>
      rcases ih with ⟨front, final, unended, small, rfl⟩
      exact ⟨byte :: front, final, List.forall_mem_cons.mpr ⟨large, unended⟩, small, rfl⟩

theorem Unended.groups_append {front : Bytes} (h : Unended front) {byte : UInt8}
    (small : byte.toNat < 128) : Groups (front ++ [byte]) (groupSum (front ++ [byte])) := by
  induction front with
  | nil =>
      have groups := Groups.last small
      rwa [groups.value_eq] at groups
  | cons first front ih =>
      obtain ⟨large, unended⟩ := List.forall_mem_cons.mp h
      rw [List.cons_append, groupSum_cons]
      exact .more large (ih unended)

/-- Nine groups leave one bit of 64, so of the tenth only the lowest bit may be set. -/
theorem groupSum_fits_iff {front : Bytes} {byte : UInt8} (small : byte.toNat < 128)
    (hLength : front.length ≤ 9) :
    groupSum (front ++ [byte]) < 2 ^ 64 ↔ (front.length = 9 → byte.toNat ≤ 1) := by
  have hFront := groupSum_lt front
  have hByte : groupSum [byte] = byte.toNat := (Groups.last small).value_eq.symm
  rw [groupSum_append, hByte]
  by_cases tenth : front.length = 9
  · rw [tenth] at hFront ⊢
    omega
  · have hPower : 128 ^ front.length ≤ 128 ^ 8 := Nat.pow_le_pow_right (by decide) (by omega)
    have fits : groupSum front + 128 ^ front.length * byte.toNat < 2 ^ 64 :=
      calc groupSum front + 128 ^ front.length * byte.toNat
          < 128 ^ front.length + 128 ^ front.length * byte.toNat := Nat.add_lt_add_right hFront _
        _ = 128 ^ front.length * (byte.toNat + 1) := by ring
        _ ≤ 128 ^ 8 * 128 := Nat.mul_le_mul hPower small
        _ < 2 ^ 64 := by decide
    simp only [tenth, false_imp_iff, iff_true]
    exact fits

/-! ### Where the bytes decide -/

/-- A byte and what stands before it, as a way to cut the input in three. -/
theorem take_and_getElem?_iff {property : Bytes → Prop} {input : Bytes} {index : Nat}
    {byte : UInt8} : property (input.take index) ∧ input[index]? = some byte ↔
      ∃ front rest, property front ∧ front.length = index ∧ front ++ byte :: rest = input := by
  constructor
  · intro h
    obtain ⟨hFront, hByte⟩ := h
    obtain ⟨inBytes, rfl⟩ := List.getElem?_eq_some_iff.mp hByte
    refine ⟨_, input.drop (index + 1), hFront, List.length_take_of_le (Nat.le_of_lt inBytes), ?_⟩
    rw [← List.drop_eq_getElem_cons inBytes, List.take_append_drop]
  · intro h
    rcases h with ⟨front, rest, hFront, rfl, rfl⟩
    simp [hFront]

theorem holdsNumber_iff {input : Bytes} {last : Nat} :
    HoldsNumber input last ↔
      ∃ front byte rest, Unended front ∧ byte.toNat < 128 ∧ front.length ≤ 9 ∧
        (front.length = 9 → byte.toNat ≤ 1) ∧ front.length = last ∧
        front ++ byte :: rest = input := by
  constructor
  · intro h
    rcases h.ends with ⟨byte, hByte, small, tenth⟩
    rcases take_and_getElem?_iff.mp ⟨h.continued, hByte⟩ with ⟨front, rest, unended, rfl, hInput⟩
    exact ⟨front, byte, rest, unended, small, h.last_le, tenth, rfl, hInput⟩
  · intro h
    rcases h with ⟨front, byte, rest, unended, small, hLength, tenth, rfl, rfl⟩
    obtain ⟨continued, hByte⟩ := take_and_getElem?_iff.mpr ⟨front, rest, unended, rfl, rfl⟩
    exact ⟨continued, ⟨byte, hByte, small, tenth⟩, hLength⟩

theorem HoldsNumber.groupSum_lt {input : Bytes} {last : Nat} (h : HoldsNumber input last) :
    groupSum (input.take (last + 1)) < 2 ^ 64 := by
  rcases holdsNumber_iff.mp h with ⟨front, byte, rest, _, small, hLength, tenth, rfl, rfl⟩
  rw [List.append_cons, List.take_left' (by simp)]
  exact (groupSum_fits_iff small hLength).mpr tenth

theorem spells_prefix_iff {input : Bytes} {number : UInt64} {count : Nat} :
    (∃ text, Spells text number ∧ text <+: input ∧ text.length = count) ↔
      ∃ last, HoldsNumber input last ∧ number.toNat = groupSum (input.take (last + 1)) ∧
        last + 1 = count := by
  constructor
  · intro h
    rcases h with ⟨text, hText, ⟨rest, rfl⟩, rfl⟩
    rcases hText.groups.exists_unended with ⟨front, byte, unended, small, rfl⟩
    have hLength := hText.length_le
    rw [List.length_append, List.length_singleton] at hLength
    have hValue := hText.groups.value_eq
    have tenth := (groupSum_fits_iff small (Nat.le_of_succ_le_succ hLength)).mp
      (hValue ▸ number.toNat_lt)
    refine ⟨front.length, holdsNumber_iff.mpr ⟨front, byte, rest, unended, small,
      Nat.le_of_succ_le_succ hLength, tenth, rfl, (List.append_cons _ _ _)⟩, ?_, by simp⟩
    rw [hValue, List.take_left' (by simp)]
  · intro h
    rcases h with ⟨last, hInput, hNumber, rfl⟩
    rcases holdsNumber_iff.mp hInput with
      ⟨front, byte, rest, unended, small, hLength, tenth, rfl, rfl⟩
    rw [List.append_cons, List.take_left' (by simp)] at hNumber
    have groups := unended.groups_append small
    rw [← hNumber] at groups
    refine ⟨front ++ [byte], ⟨groups, ?_⟩, ⟨rest, by simp⟩, by simp⟩
    rw [List.length_append]
    exact Nat.succ_le_succ hLength

theorem refusal_iff {input : Bytes} {error : DecodeError} :
    Refusal input error ↔
      (error = .truncatedInput (input.length + 1) input.length ∧ BreaksOff input) ∨
      (error = .malformedVarint .overflow ∧ Overflows input) ∨
      (error = .malformedVarint .tooLong ∧ GoesOn input) := by
  constructor
  · intro h
    cases h with
    | cut unended short => exact .inl ⟨rfl, Nat.le_of_lt_succ short, unended⟩
    | @overflow front rest byte unended hLength exceeds =>
        obtain ⟨hFront, hByte⟩ :=
          take_and_getElem?_iff.mpr ⟨front, rest, unended, Nat.succ.inj hLength, rfl⟩
        exact .inr (.inl ⟨rfl, hFront, byte, hByte, exceeds⟩)
    | @tooLong front rest byte unended hLength small large =>
        obtain ⟨hFront, hByte⟩ :=
          take_and_getElem?_iff.mpr ⟨front, rest, unended, Nat.succ.inj hLength, rfl⟩
        have hTenth : byte = 0x80 ∨ byte = 0x81 := by
          simp only [← UInt8.toNat_inj]
          change byte.toNat = 128 ∨ byte.toNat = 129
          have hBound := byte.toNat_lt
          omega
        refine .inr (.inr ⟨rfl, hFront, ?_⟩)
        rw [hByte]
        exact hTenth.imp (congrArg some) (congrArg some)
  · intro h
    rcases h with ⟨rfl, short, unended⟩ | ⟨rfl, hFront, byte, hByte, exceeds⟩ |
      ⟨rfl, hFront, hByte⟩
    · exact .cut unended (Nat.lt_succ_of_le short)
    · rcases take_and_getElem?_iff.mp ⟨hFront, hByte⟩ with ⟨front, rest, unended, hLength, rfl⟩
      exact .overflow unended (congrArg Nat.succ hLength) exceeds
    · rcases hByte with hByte | hByte
      · rcases take_and_getElem?_iff.mp ⟨hFront, hByte⟩ with ⟨front, rest, unended, hLength, rfl⟩
        exact .tooLong unended (congrArg Nat.succ hLength) (by decide) (by decide)
      · rcases take_and_getElem?_iff.mp ⟨hFront, hByte⟩ with ⟨front, rest, unended, hLength, rfl⟩
        exact .tooLong unended (congrArg Nat.succ hLength) (by decide) (by decide)

/-! ### Reading at a cursor -/

theorem run_read_eq_ok_iff_holdsNumber {cursor advanced : Cursor} {number : UInt64} :
    cursor.run read = (.ok number, advanced) ↔
      ∃ last, HoldsNumber cursor.rest last ∧
        number.toNat = groupSum (cursor.rest.take (last + 1)) ∧
        advanced = { cursor with position := cursor.position + (last + 1) } := by
  rw [reads_read.run_eq_ok_iff]
  constructor
  · intro h
    rcases h with ⟨text, hText, hPrefix, rfl⟩
    rcases spells_prefix_iff.mp ⟨text, hText, hPrefix, rfl⟩ with ⟨last, hInput, hNumber, hCount⟩
    exact ⟨last, hInput, hNumber, by rw [hCount]⟩
  · intro h
    rcases h with ⟨last, hInput, hNumber, rfl⟩
    rcases spells_prefix_iff.mpr ⟨last, hInput, hNumber, rfl⟩ with ⟨text, hText, hPrefix, hCount⟩
    exact ⟨text, hText, hPrefix, by rw [hCount]⟩

/-- Every input holds a number that ends in time, breaks off, overflows or goes on too long, and
reading says which. A number is the exact sum of its groups, and an error leaves the place alone. A
machine that shifts the groups into a word of 64 bits never shifts a bit out of it. -/
theorem run_read_decides (cursor : Cursor) :
    (∀ number advanced, cursor.run read = (.ok number, advanced) ↔
      ∃ last, HoldsNumber cursor.rest last ∧
        number.toNat = groupSum (cursor.rest.take (last + 1)) ∧
        advanced = { cursor with position := cursor.position + (last + 1) }) ∧
    (∀ last, HoldsNumber cursor.rest last →
      groupSum (cursor.rest.take (last + 1)) < 2 ^ 64) ∧
    (∀ error advanced, cursor.run read = (.error error, advanced) ↔
      ((error = .truncatedInput (cursor.rest.length + 1) cursor.rest.length ∧
          BreaksOff cursor.rest) ∨
        (error = .malformedVarint .overflow ∧ Overflows cursor.rest) ∨
        (error = .malformedVarint .tooLong ∧ GoesOn cursor.rest)) ∧ advanced = cursor) ∧
    ((∃ last, HoldsNumber cursor.rest last) ∨ BreaksOff cursor.rest ∨ Overflows cursor.rest ∨
      GoesOn cursor.rest) ∧
    (VarintFault.message .overflow = "value overflows u64" ∧
      VarintFault.message .tooLong = "encoding longer than 10 bytes") ∧
    ∀ size, maxBytes < size → cursor.InRange size →
      Machine.varint size cursor = some (cursor.run read) := by
  have hError : ∀ {error advanced}, cursor.run read = (.error error, advanced) ↔ _ :=
    refuses_read.run_eq_error_iff
  simp only [refusal_iff] at hError
  refine ⟨fun _ _ => run_read_eq_ok_iff_holdsNumber, fun _ => HoldsNumber.groupSum_lt,
    fun _ _ => hError, ?_, ⟨rfl, rfl⟩, ?_⟩
  · rcases hRun : cursor.run read with ⟨error | number, advanced⟩
    · rcases (hError.mp hRun).1 with ⟨_, breaksOff⟩ | ⟨_, overflows⟩ | ⟨_, goesOn⟩
      · exact .inr (.inl breaksOff)
      · exact .inr (.inr (.inl overflows))
      · exact .inr (.inr (.inr goesOn))
    · rcases run_read_eq_ok_iff_holdsNumber.mp hRun with ⟨last, hInput, _⟩
      exact .inl ⟨last, hInput⟩
  · intro size hSize hPlace
    exact Machine.varint_performs hSize hPlace

/-- No eleventh byte is looked for. -/
example : (Cursor.ofBytes (List.replicate 9 0x80 ++ [0x81])).run read =
    (.error (.malformedVarint .tooLong), .ofBytes (List.replicate 9 0x80 ++ [0x81])) := by cbv

end Timestamping.Varint
