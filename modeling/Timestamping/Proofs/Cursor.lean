import Timestamping.Proofs.Refusal

/-!
Places that readers leave. A reader that is run at a cursor fails and leaves it where it is, or
moves it on within the same bytes, behind what it has taken off the front. Main statement: what is
run in two parts is run part after part, except that a failure of the second is told of the first
place.
-/

namespace Timestamping

variable {α β : Type}

theorem Reader.Reads.takesFront {reader : Reader α} {language : Language α}
    (h : reader.Reads language) : reader.TakesFront := by
  intro input value rest hRead
  rcases h.mp hRead with ⟨text, _, rfl⟩
  exact List.suffix_append text rest

/-- A place within its bytes, which are few enough to be counted by words below `size`. -/
structure Cursor.InRange (size : Nat) (cursor : Cursor) : Prop where
  position_le : cursor.position ≤ cursor.bytes.length
  length_lt : cursor.bytes.length < size

namespace Cursor

theorem run_of_ok {reader : Reader α} {cursor : Cursor} {value : α} {rest : Bytes}
    (h : reader cursor.rest = .ok (value, rest)) : cursor.run reader = (.ok value, { cursor with
      position := cursor.position + (cursor.remaining - rest.length) }) := by
  rw [run, h]

theorem run_of_error {reader : Reader α} {cursor : Cursor} {error : DecodeError}
    (h : reader cursor.rest = .error error) : cursor.run reader = (.error error, cursor) := by
  rw [run, h]

/-- A place in the same bytes, no earlier than the first and not behind the end. -/
structure LeadsTo (before after : Cursor) : Prop where
  bytes_eq : after.bytes = before.bytes
  position_le : before.position ≤ after.position
  within : before.position ≤ before.bytes.length → after.position ≤ before.bytes.length

theorem leadsTo_run (reader : Reader α) (cursor : Cursor) :
    cursor.LeadsTo (cursor.run reader).2 := by
  cases h : reader cursor.rest with
  | error error =>
      rw [run_of_error h]
      exact ⟨rfl, Nat.le_refl _, id⟩
  | ok result =>
      rw [run_of_ok h]
      refine ⟨rfl, Nat.le_add_right _ _, ?_⟩
      intro hPosition
      change cursor.position + (cursor.bytes.length - cursor.position - result.2.length) ≤
        cursor.bytes.length
      omega

theorem LeadsTo.inRange {size : Nat} {before after : Cursor} (h : before.LeadsTo after)
    (hBefore : before.InRange size) : after.InRange size := by
  refine ⟨?_, ?_⟩
  · rw [h.bytes_eq]
    exact h.within hBefore.position_le
  · rw [h.bytes_eq]
    exact hBefore.length_lt

theorem InRange.run {size : Nat} {cursor : Cursor} (h : cursor.InRange size) (reader : Reader α) :
    (cursor.run reader).2.InRange size :=
  (leadsTo_run reader cursor).inRange h

theorem rest_run {reader : Reader α} (hReader : reader.TakesFront) {cursor : Cursor} {value : α}
    {rest : Bytes} (h : reader cursor.rest = .ok (value, rest)) :
    (cursor.run reader).2.rest = rest := by
  rw [run_of_ok h]
  change cursor.bytes.drop (cursor.position + (cursor.remaining - rest.length)) = rest
  rw [← List.drop_drop, ← length_rest]
  exact (List.suffix_iff_eq_drop.mp (hReader h)).symm

/-- The place before a read is the place behind it, put back. -/
theorem position_run (reader : Reader α) (cursor : Cursor) :
    { (cursor.run reader).2 with position := cursor.position } = cursor := by
  cases h : reader cursor.rest with
  | error error => rw [run_of_error h]
  | ok result => rw [run_of_ok h]

theorem run_map (reader : Reader α) (change : α → β) (cursor : Cursor) :
    cursor.run (change <$> reader) = ((cursor.run reader).1.map change, (cursor.run reader).2) := by
  cases h : reader cursor.rest with
  | error error =>
      rw [run_of_error h, run_of_error (Reader.map_eq_error_iff.mpr h)]
      rfl
  | ok result =>
      rw [run_of_ok h, run_of_ok (Reader.map_eq_ok_iff.mpr ⟨result.1, h, rfl⟩)]
      rfl

theorem run_mapError_of_error {reader : Reader α} {describe : DecodeError → DecodeError}
    {cursor : Cursor} {error : DecodeError} (h : reader cursor.rest = .error error) :
    cursor.run (reader.mapError describe) = (.error (describe error), cursor) :=
  run_of_error (Reader.mapError_eq_error_iff.mpr ⟨error, h, rfl⟩)

theorem run_lift (result : Except DecodeError α) (cursor : Cursor) :
    cursor.run (liftM result : Reader α) = (result, cursor) := by
  cases result with
  | error error => exact run_of_error ((Reader.refuses_lift _).mpr rfl)
  | ok value =>
      rw [run_of_ok (Reader.lift_eq_ok_iff.mpr ⟨rfl, rfl⟩), length_rest, Nat.sub_self]
      rfl

theorem run_bind_of_error {reader : Reader α} {next : α → Reader β} {cursor : Cursor}
    {error : DecodeError} (h : reader cursor.rest = .error error) :
    cursor.run (reader >>= next) = (.error error, cursor) :=
  run_of_error (Reader.bind_eq_error_iff.mpr (.inl h))

/-- What the second part makes of the place behind the first; its failure is told of the place
before both. -/
theorem run_bind_of_ok {reader : Reader α} {next : α → Reader β} (hReader : reader.TakesFront)
    {cursor : Cursor} {value : α} {rest : Bytes} (h : reader cursor.rest = .ok (value, rest))
    (hNext : (next value).TakesFront) : cursor.run (reader >>= next) =
      match (cursor.run reader).2.run (next value) with
      | (.ok result, after) => (.ok result, after)
      | (.error error, _) => (.error error, cursor) := by
  have hRest := rest_run hReader h
  cases hSecond : next value rest with
  | error error =>
      rw [run_of_error (Reader.bind_eq_error_iff.mpr (.inr ⟨value, rest, h, hSecond⟩))]
      rw [← hRest] at hSecond
      rw [run_of_error hSecond]
  | ok result =>
      rw [run_of_ok (Reader.bind_eq_ok_iff.mpr ⟨value, rest, h, hSecond⟩)]
      have hFirstLength := (hReader h).length_le
      have hSecondLength := (hNext hSecond).length_le
      have hRemaining := remaining_run hReader h
      rw [← hRest] at hSecond
      rw [run_of_ok hSecond, hRemaining, run_of_ok h]
      rw [length_rest] at hFirstLength
      dsimp only
      congr 2
      omega

theorem eq_of_run_error {reader : Reader α} {cursor after : Cursor} {error : DecodeError}
    (h : cursor.run reader = (.error error, after)) : after = cursor := by
  cases hRead : reader cursor.rest with
  | error cause =>
      rw [run_of_error hRead] at h
      exact (Prod.mk.inj h).2.symm
  | ok result =>
      rw [run_of_ok hRead] at h
      cases h

/-- The bytes from one place to another. -/
def passed (before after : Cursor) : Bytes :=
  (after.bytes.take after.position).drop before.position

theorem passed_of_prefix {cursor : Cursor} {text : Bytes} (h : text <+: cursor.rest) :
    cursor.passed { cursor with position := cursor.position + text.length } = text := by
  rw [passed, List.drop_take, Nat.add_sub_cancel_left]
  exact (List.prefix_iff_eq_take.mp h).symm

end Cursor

end Timestamping
