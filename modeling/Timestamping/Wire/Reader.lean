import Timestamping.Error

/-!
Readers of a byte string. A reader sees only the bytes that are left, and hands back those it has
not used; when it fails it hands back none, so whoever holds the input still has all of it.
Main statement: the readers of this library take bytes off the front and change none of the others.
-/

namespace Timestamping

abbrev Reader (α : Type) := StateT Bytes (Except DecodeError) α

namespace Reader

variable {α β : Type}

/-- The next `count` bytes, which carry their number with them. -/
def exactly (count : Nat) : Reader { bytes : Bytes // bytes.length = count } := fun input =>
  if enough : count ≤ input.length then
    .ok (⟨input.take count, List.length_take_of_le enough⟩, input.drop count)
  else .error (.truncatedInput count input.length)

def bytes (count : Nat) : Reader Bytes :=
  Subtype.val <$> exactly count

def expectEnd : Reader Unit := fun input =>
  match input with
  | [] => .ok ((), [])
  | _ :: _ => .error (.trailingPayloadBytes input.length)

def mapError (describe : DecodeError → DecodeError) (reader : Reader α) : Reader α := fun input =>
  (reader input).mapError describe

/-- What a reader makes of a whole byte string, of which it may leave nothing. -/
def readAll (reader : Reader α) (input : Bytes) : Except DecodeError α := do
  let (value, rest) ← reader input
  let _ ← expectEnd rest
  pure value

theorem bind_eq_ok_iff {reader : Reader α} {next : α → Reader β} {input rest : Bytes} {value : β} :
    (reader >>= next) input = .ok (value, rest) ↔
      ∃ first middle, reader input = .ok (first, middle) ∧ next first middle = .ok (value, rest) := by
  cases h : reader input with
  | error error => simp [bind, StateT.bind, Except.bind, h]
  | ok result =>
      obtain ⟨first, middle⟩ := result
      simp [bind, StateT.bind, Except.bind, h, and_assoc]

theorem map_eq_ok_iff {reader : Reader α} {change : α → β} {input rest : Bytes} {value : β} :
    (change <$> reader) input = .ok (value, rest) ↔
      ∃ first, reader input = .ok (first, rest) ∧ change first = value := by
  cases h : reader input with
  | error error => simp [Functor.map, StateT.map, bind, Except.bind, h]
  | ok result =>
      obtain ⟨first, middle⟩ := result
      simp only [Functor.map, StateT.map, bind, Except.bind, pure, Except.pure, h, Except.ok.injEq,
        Prod.mk.injEq]
      constructor
      · rintro ⟨hValue, hRest⟩
        exact ⟨first, ⟨rfl, hRest⟩, hValue⟩
      · rintro ⟨_, ⟨rfl, hRest⟩, hValue⟩
        exact ⟨hValue, hRest⟩

theorem lift_eq_ok_iff {result : Except DecodeError α} {input rest : Bytes} {value : α} :
    (liftM result : Reader α) input = .ok (value, rest) ↔ result = .ok value ∧ input = rest := by
  cases result with
  | error error => simp [liftM, monadLift, MonadLift.monadLift, StateT.lift, bind, Except.bind]
  | ok first =>
      simp [liftM, monadLift, MonadLift.monadLift, StateT.lift, bind, Except.bind, pure,
        Except.pure]

theorem mapError_eq_ok_iff {reader : Reader α} {describe : DecodeError → DecodeError}
    {input rest : Bytes} {value : α} :
    reader.mapError describe input = .ok (value, rest) ↔ reader input = .ok (value, rest) := by
  rw [mapError]
  cases reader input with
  | error error =>
      constructor
      · intro h
        cases h
      · intro h
        cases h
  | ok result => exact Iff.rfl

theorem exactly_eq_ok_iff {count : Nat} {input rest : Bytes}
    {value : { bytes : Bytes // bytes.length = count }} :
    exactly count input = .ok (value, rest) ↔ input = value.val ++ rest := by
  rw [exactly]
  constructor
  · intro h
    split at h
    · cases h
      exact (List.take_append_drop count input).symm
    · cases h
  · intro h
    subst h
    have hCount := value.property
    rw [dif_pos (by simp [hCount])]
    congr 2
    · apply Subtype.ext
      simp [← hCount]
    · simp [← hCount]

theorem bytes_eq_ok_iff {count : Nat} {input rest value : Bytes} :
    bytes count input = .ok (value, rest) ↔ value.length = count ∧ input = value ++ rest := by
  rw [bytes, map_eq_ok_iff]
  constructor
  · rintro ⟨first, hRead, rfl⟩
    exact ⟨first.property, exactly_eq_ok_iff.mp hRead⟩
  · rintro ⟨hCount, hInput⟩
    exact ⟨⟨value, hCount⟩, exactly_eq_ok_iff.mpr hInput, rfl⟩

/-- Whatever the reader leaves is the end of what it was given. -/
def TakesFront (reader : Reader α) : Prop :=
  ∀ ⦃input value rest⦄, reader input = .ok (value, rest) → rest <:+ input

theorem TakesFront.bind {reader : Reader α} {next : α → Reader β} (hReader : reader.TakesFront)
    (hNext : ∀ first, (next first).TakesFront) : (reader >>= next).TakesFront := by
  intro input value rest h
  obtain ⟨first, middle, hFirst, hRest⟩ := bind_eq_ok_iff.mp h
  exact (hNext first hRest).trans (hReader hFirst)

theorem TakesFront.map {reader : Reader α} (hReader : reader.TakesFront) (change : α → β) :
    (change <$> reader).TakesFront := by
  intro input value rest h
  obtain ⟨first, hFirst, -⟩ := map_eq_ok_iff.mp h
  exact hReader hFirst

theorem TakesFront.mapError {reader : Reader α} (hReader : reader.TakesFront)
    (describe : DecodeError → DecodeError) : (reader.mapError describe).TakesFront :=
  fun _ _ _ h => hReader (mapError_eq_ok_iff.mp h)

theorem TakesFront.lift (result : Except DecodeError α) :
    (liftM result : Reader α).TakesFront := by
  intro input value rest h
  exact (lift_eq_ok_iff.mp h).2 ▸ List.suffix_refl input

theorem TakesFront.throw (error : DecodeError) : (throw error : Reader α).TakesFront := by
  intro input value rest h
  cases h

theorem exactly_takesFront (count : Nat) : (exactly count).TakesFront := by
  intro input value rest h
  rw [exactly_eq_ok_iff.mp h]
  exact List.suffix_append _ _

theorem bytes_takesFront (count : Nat) : (bytes count).TakesFront :=
  (exactly_takesFront count).map Subtype.val

end Reader

end Timestamping
