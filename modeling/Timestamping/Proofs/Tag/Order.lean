import Mathlib.Data.Nat.Digits.Defs
import Timestamping.Proofs.Record.Grammar
import Timestamping.Proofs.Text.Hex

/-!
The order of tags. Tags are compared byte by byte from the left. Main statement: their numbers and
their texts come in the same order, so it does not matter whether a list of tags is sorted before it
is written out or afterwards.
-/

namespace Timestamping

/-- The elements of a list, none of which is greater than one behind it. -/
structure Sorts {α : Type} (order : α → α → Ordering) (list sorted : List α) : Prop where
  perm : sorted.Perm list
  ascends : sorted.Pairwise fun first second => (order first second).isLE = true

def sort {α : Type} (order : α → α → Ordering) (list : List α) : List α :=
  list.mergeSort fun first second => (order first second).isLE

/-- The number whose bytes these are, the most significant first. -/
def bigEndian (bytes : Bytes) : Nat :=
  Nat.ofDigits 256 (bytes.map UInt8.toNat).reverse

/-- Eight bytes fill 64 bits. -/
def Tag.number (tag : Tag) : UInt64 :=
  .ofNat (bigEndian tag.bytes)

/-- The UTF-8 form of a digit, which is one byte. -/
def Hex.digitByte (value : Nat) : UInt8 :=
  .ofNat (Nat.digitChar value).toNat

/-! ### Sorted lists -/

section Sorting

variable {α β : Type} {order : α → α → Ordering}

theorem sorts_sort [Std.TransCmp order] (list : List α) : Sorts order list (sort order list) := by
  refine ⟨List.mergeSort_perm list _, List.pairwise_mergeSort ?_ ?_ list⟩
  · intro first second third
    exact Std.TransCmp.isLE_trans
  · intro first second
    rw [@Std.OrientedCmp.eq_swap α order _ second first]
    cases order first second <;> rfl

/-- A list is sorted in one way only, if the order tells its elements apart. -/
theorem Sorts.unique {list first second : List α} (hFirst : Sorts order list first)
    (hSecond : Sorts order list second)
    (antisymm : ∀ lower ∈ list, ∀ upper ∈ list, (order lower upper).isLE = true →
      (order upper lower).isLE = true → lower = upper) : first = second := by
  apply List.Perm.eq_of_pairwise ?_ hFirst.ascends hSecond.ascends
    (hFirst.perm.trans hSecond.perm.symm)
  intro lower upper hLower hUpper
  exact antisymm lower (hFirst.perm.mem_iff.mp hLower) upper (hSecond.perm.mem_iff.mp hUpper)

variable {written : β → β → Ordering} {write : α → β}

theorem map_sort (same : ∀ first second, written (write first) (write second) = order first second)
    (list : List α) : (sort order list).map write = sort written (list.map write) := by
  apply List.map_mergeSort
  intro first _ second _
  rw [same]

theorem Sorts.map (same : ∀ first second, written (write first) (write second) = order first second)
    {list sorted : List α} (h : Sorts order list sorted) :
    Sorts written (list.map write) (sorted.map write) := by
  refine ⟨h.perm.map write, List.pairwise_map.mpr ?_⟩
  simp only [same]
  exact h.ascends

/-- What is written is sorted, by whatever method, when it is written in order. -/
theorem sorts_map_iff [Std.TransCmp order] [Std.LawfulEqCmp order]
    (same : ∀ first second, written (write first) (write second) = order first second)
    {list : List α} {texts : List β} :
    Sorts written (list.map write) texts ↔ texts = (sort order list).map write := by
  have hSort : Sorts written (list.map write) ((sort order list).map write) :=
    (sorts_sort list).map same
  constructor
  · intro h
    apply h.unique hSort
    intro lower hLower upper hUpper
    rcases List.mem_map.mp hLower with ⟨first, _, rfl⟩
    rcases List.mem_map.mp hUpper with ⟨second, _, rfl⟩
    rw [same, same]
    intro hFirst hSecond
    rw [Std.LawfulEqCmp.eq_of_compare (Std.OrientedCmp.isLE_antisymm hFirst hSecond)]
  · rintro rfl
    exact hSort

theorem sorts_iff [Std.TransCmp order] [Std.LawfulEqCmp order] {list sorted : List α} :
    Sorts order list sorted ↔ sorted = sort order list := by
  have h := @sorts_map_iff α α order order id _ _ (fun _ _ => rfl) list sorted
  rwa [List.map_id, List.map_id] at h

end Sorting

/-! ### Digits -/

/-- Upper digits decide, and lower ones only where they are the same. -/
theorem compare_add_mul {base low other : Nat} (hLow : low < base) (hOther : other < base)
    (first second : Nat) : compare (low + base * first) (other + base * second) =
      (compare first second).then (compare low other) := by
  have step : ∀ {lower upper : Nat}, lower < upper → base * lower + base ≤ base * upper :=
    fun h => Nat.mul_le_mul_left base h
  cases h : compare first second with
  | lt =>
      have hStep := step (Nat.compare_eq_lt.mp h)
      exact Nat.compare_eq_lt.mpr (by omega)
  | eq =>
      obtain rfl := Nat.compare_eq_eq.mp h
      cases hRest : compare low other with
      | lt => exact Nat.compare_eq_lt.mpr (Nat.add_lt_add_right (Nat.compare_eq_lt.mp hRest) _)
      | eq => exact Nat.compare_eq_eq.mpr (congrArg (· + _) (Nat.compare_eq_eq.mp hRest))
      | gt => exact Nat.compare_eq_gt.mpr (Nat.add_lt_add_right (Nat.compare_eq_gt.mp hRest) _)
  | gt =>
      have hStep := step (Nat.compare_eq_gt.mp h)
      exact Nat.compare_eq_gt.mpr (by omega)

theorem bigEndian_lt (bytes : Bytes) : bigEndian bytes < 256 ^ bytes.length := by
  have hLength : (bytes.map UInt8.toNat).reverse.length = bytes.length := by simp
  rw [← hLength]
  apply Nat.ofDigits_lt_base_pow_length (by decide)
  simp only [List.mem_reverse, List.forall_mem_map]
  intro byte _
  exact byte.toNat_lt

theorem bigEndian_cons (byte : UInt8) (bytes : Bytes) :
    bigEndian (byte :: bytes) = bigEndian bytes + 256 ^ bytes.length * byte.toNat := by
  rw [bigEndian, List.map_cons, Nat.ofDigits_reverse_cons, List.length_map]
  rfl

/-- Of two numbers of as many bytes the greater has the greater bytes. -/
theorem compare_bigEndian {first second : Bytes} (same : first.length = second.length) :
    compare (bigEndian first) (bigEndian second) = compare first second := by
  induction first generalizing second with
  | nil =>
      obtain rfl := List.length_eq_zero_iff.mp same.symm
      rfl
  | cons byte first ih =>
      cases second with
      | nil => cases same
      | cons other second =>
          have hRest : first.length = second.length := Nat.succ.inj same
          have hFirst := bigEndian_lt first
          have hSecond := bigEndian_lt second
          rw [hRest] at hFirst
          rw [bigEndian_cons, bigEndian_cons, hRest, compare_add_mul hFirst hSecond,
            List.compare_cons_cons, ih hRest, UInt8.compare_eq_toNat_compare_toNat]

/-- Digits in the order of their values, two for each byte, are ordered as the bytes are. -/
theorem compare_flatMap_digits {α : Type} [Ord α] {digit : Nat → α}
    (digits : ∀ first < 16, ∀ second < 16,
      compare (digit first) (digit second) = compare first second) (first second : Bytes) :
    compare (first.flatMap fun byte => [digit (byte.toNat / 16), digit (byte.toNat % 16)])
      (second.flatMap fun byte => [digit (byte.toNat / 16), digit (byte.toNat % 16)]) =
      compare first second := by
  induction first generalizing second with
  | nil =>
      cases second with
      | nil => rfl
      | cons other second => rfl
  | cons byte first ih =>
      cases second with
      | nil => rfl
      | cons other second =>
          have hByte := byte.toNat_lt
          have hOther := other.toNat_lt
          have hLow : byte.toNat % 16 < 16 := Nat.mod_lt _ (by decide)
          have otherLow : other.toNat % 16 < 16 := Nat.mod_lt _ (by decide)
          have hPair := compare_add_mul hLow otherLow (byte.toNat / 16) (other.toNat / 16)
          rw [Nat.mod_add_div, Nat.mod_add_div, ← UInt8.compare_eq_toNat_compare_toNat] at hPair
          simp only [List.flatMap_cons, List.cons_append, List.nil_append, List.compare_cons_cons]
          rw [digits _ (by omega) _ (by omega), digits _ hLow _ otherLow, ih, hPair,
            Ordering.then_assoc]

namespace Hex

theorem compare_encode (first second : Bytes) :
    compare (encode first) (encode second) = compare first second :=
  compare_flatMap_digits (by decide) first second

theorem utf8_encode (bytes : Bytes) : Utf8.encode (encode bytes) =
    bytes.flatMap fun byte => [digitByte (byte.toNat / 16), digitByte (byte.toNat % 16)] := by
  have single : ∀ value < 16, String.utf8EncodeChar (Nat.digitChar value) = [digitByte value] := by
    decide
  rw [Utf8.encode, encode, List.flatMap_assoc]
  congr 1
  funext byte
  have hByte := byte.toNat_lt
  rw [Escape.hexPair, List.flatMap_cons, List.flatMap_singleton, single _ (by omega),
    single _ (by omega)]
  rfl

theorem compare_utf8 (first second : Bytes) :
    compare (Utf8.encode (encode first)) (Utf8.encode (encode second)) = compare first second := by
  have digits : ∀ first < 16, ∀ second < 16,
      compare (digitByte first) (digitByte second) = compare first second := by decide
  rw [utf8_encode, utf8_encode]
  exact compare_flatMap_digits digits first second

end Hex

/-! ### Tags -/

namespace Tag

theorem compare_eq (first second : Tag) :
    compare first second = compare first.bytes second.bytes :=
  rfl

instance : Std.TransOrd Tag where
  eq_swap := by
    intro first second
    rw [compare_eq, compare_eq]
    exact Std.OrientedCmp.eq_swap
  isLE_trans := by
    intro first second third
    rw [compare_eq, compare_eq, compare_eq]
    exact Std.TransCmp.isLE_trans

instance : Std.LawfulEqOrd Tag where
  compare_self := by
    intro tag
    rw [compare_eq]
    exact Std.ReflCmp.compare_self
  eq_of_compare := by
    intro first second h
    rw [compare_eq] at h
    exact bytes_inj.mp (Std.LawfulEqCmp.eq_of_compare h)

theorem toNat_number (tag : Tag) : tag.number.toNat = bigEndian tag.bytes := by
  have bound := bigEndian_lt tag.bytes
  rw [tag.bytesLength] at bound
  rw [number, UInt64.toNat_ofNat']
  exact Nat.mod_eq_of_lt bound

theorem compare_number (first second : Tag) :
    compare first.number second.number = compare first second := by
  rw [UInt64.compare_eq_toNat_compare_toNat, toNat_number, toNat_number, compare_eq]
  exact compare_bigEndian (first.bytesLength.trans second.bytesLength.symm)

theorem compare_toHex (first second : Tag) :
    compare first.toHex second.toHex = compare first second :=
  Hex.compare_encode first.bytes second.bytes

theorem compareOn_toHex (first second : Tag) :
    compareOn Utf8.encode first.toHex second.toHex = compare first second :=
  Hex.compare_utf8 first.bytes second.bytes

/-- Two tags compare as their numbers do and as their texts do, be it by character or by the bytes
of UTF-8. Sorting has one outcome, and the texts of some tags are sorted exactly when they are those
of the sorted tags. -/
theorem order_agrees :
    (∀ first second : Tag, compare first second = compare first.number second.number ∧
      compare first second = compare first.toHex second.toHex ∧
      compare first second = compareOn Utf8.encode first.toHex second.toHex) ∧
    (∀ tags : List Tag,
      (sort compare tags).map toHex = sort compare (tags.map toHex) ∧
      (sort compare tags).map toHex = sort (compareOn Utf8.encode) (tags.map toHex)) ∧
    (∀ tags sorted : List Tag, Sorts compare tags sorted ↔ sorted = sort compare tags) ∧
    (∀ (tags : List Tag) (texts : List Text),
      Sorts compare (tags.map toHex) texts ↔ texts = (sort compare tags).map toHex) ∧
    ∀ (tags : List Tag) (texts : List Text),
      Sorts (compareOn Utf8.encode) (tags.map toHex) texts ↔
        texts = (sort compare tags).map toHex := by
  refine ⟨?_, ?_, fun _ _ => sorts_iff, fun _ _ => sorts_map_iff compare_toHex,
    fun _ _ => sorts_map_iff compareOn_toHex⟩
  · intro first second
    exact ⟨(compare_number first second).symm, (compare_toHex first second).symm,
      (compareOn_toHex first second).symm⟩
  · intro tags
    exact ⟨map_sort compare_toHex tags, map_sort compareOn_toHex tags⟩

end Tag

end Timestamping
