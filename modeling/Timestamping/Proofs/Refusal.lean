import Timestamping.Proofs.Language

/-!
Refusals of readers. They say which inputs a reader fails on, and with which error. What a language
is to the values that a reader gives, refusals are to its errors. Main statements: a reader of two
parts refuses what the first part refuses and, behind every piece that the first part takes, what
the second one refuses; and a refused input is left untouched.
-/

namespace Timestamping

/-- Which inputs are refused, and what is said of them. -/
abbrev Refusals := Bytes → DecodeError → Prop

/-- The second part is only asked about what stands behind a piece that the first part takes. -/
def Refusals.bind {α : Type} (first : Refusals) (front : Language α) (second : α → Refusals) :
    Refusals := fun input error =>
  first input error ∨
    ∃ text value rest, front text value ∧ second value rest error ∧ text ++ rest = input

namespace Reader

variable {α β : Type}

theorem bind_eq_error_iff {reader : Reader α} {next : α → Reader β} {input : Bytes}
    {error : DecodeError} :
    (reader >>= next) input = .error error ↔
      reader input = .error error ∨
        ∃ first middle, reader input = .ok (first, middle) ∧ next first middle = .error error := by
  cases h : reader input with
  | error cause => simp [bind, StateT.bind, Except.bind, h]
  | ok result =>
      obtain ⟨first, middle⟩ := result
      simp [bind, StateT.bind, Except.bind, h, and_assoc]

theorem map_eq_error_iff {reader : Reader α} {change : α → β} {input : Bytes}
    {error : DecodeError} :
    (change <$> reader) input = .error error ↔ reader input = .error error := by
  cases h : reader input with
  | error cause => simp [Functor.map, StateT.map, bind, Except.bind, h]
  | ok result => simp [Functor.map, StateT.map, bind, Except.bind, pure, Except.pure, h]

theorem mapError_eq_error_iff {reader : Reader α} {describe : DecodeError → DecodeError}
    {input : Bytes} {error : DecodeError} :
    reader.mapError describe input = .error error ↔
      ∃ cause, reader input = .error cause ∧ describe cause = error := by
  rw [mapError]
  cases reader input with
  | error cause =>
      change Except.error (describe cause) = .error error ↔ _
      simp
  | ok result =>
      change Except.ok result = .error error ↔ _
      simp

/-- A reader that is run on a whole byte string fails too where something is left over. -/
theorem readAll_eq_error_iff {reader : Reader α} {input : Bytes} {error : DecodeError} :
    reader.readAll input = .error error ↔
      reader input = .error error ∨ ∃ value rest, reader input = .ok (value, rest) ∧
        rest ≠ [] ∧ error = .trailingPayloadBytes rest.length := by
  rw [readAll]
  cases reader input with
  | error cause => simp [bind, Except.bind]
  | ok result =>
      obtain ⟨value, rest⟩ := result
      cases rest with
      | nil => simp [bind, Except.bind, pure, Except.pure, expectEnd]
      | cons byte tail =>
          simp only [bind, Except.bind, expectEnd]
          constructor
          · intro h
            cases h
            exact .inr ⟨value, byte :: tail, rfl, List.cons_ne_nil byte tail, rfl⟩
          · intro h
            rcases h with impossible | ⟨_, _, same, _, rfl⟩
            · cases impossible
            · cases same
              rfl

def Refuses (reader : Reader α) (refusals : Refusals) : Prop :=
  ∀ ⦃input error⦄, reader input = .error error ↔ refusals input error

theorem Refuses.congr {reader : Reader α} {first second : Refusals} (h : reader.Refuses first)
    (same : ∀ input error, first input error ↔ second input error) : reader.Refuses second := by
  intro input error
  rw [h, same]

theorem Refuses.bind {reader : Reader α} {next : α → Reader β} {front : Language α}
    {first : Refusals} {second : α → Refusals} (hFirst : reader.Refuses first)
    (hFront : reader.Reads front) (hSecond : ∀ value, (next value).Refuses (second value)) :
    (reader >>= next).Refuses (first.bind front second) := by
  intro input error
  rw [bind_eq_error_iff, hFirst]
  apply or_congr_right
  constructor
  · intro h
    rcases h with ⟨value, rest, hReader, hNext⟩
    rcases hFront.mp hReader with ⟨text, inFront, hInput⟩
    exact ⟨text, value, rest, inFront, (hSecond value).mp hNext, hInput⟩
  · intro h
    rcases h with ⟨text, value, rest, inFront, refused, hInput⟩
    exact ⟨value, rest, hFront.mpr ⟨text, inFront, hInput⟩, (hSecond value).mpr refused⟩

theorem Refuses.map {reader : Reader α} {refusals : Refusals} (h : reader.Refuses refusals)
    (change : α → β) : (change <$> reader).Refuses refusals := by
  intro input error
  rw [map_eq_error_iff, h]

theorem Refuses.mapError {reader : Reader α} {refusals : Refusals} (h : reader.Refuses refusals)
    (describe : DecodeError → DecodeError) : (reader.mapError describe).Refuses fun input error =>
      ∃ cause, refusals input cause ∧ describe cause = error := by
  intro input error
  simp only [mapError_eq_error_iff, @h input]

theorem refuses_lift (result : Except DecodeError α) :
    (liftM result : Reader α).Refuses fun _ error => result = .error error := by
  intro input error
  cases result with
  | error cause => simp [liftM, monadLift, MonadLift.monadLift, StateT.lift, bind, Except.bind]
  | ok value =>
      simp [liftM, monadLift, MonadLift.monadLift, StateT.lift, bind, Except.bind, pure,
        Except.pure]

theorem refuses_check (value : α) (check : Except DecodeError Unit) :
    (do let _ ← check; pure value : Reader α).Refuses fun _ error => check = .error error := by
  intro input error
  rw [bind_eq_error_iff, refuses_lift check]
  apply or_iff_left
  intro h
  rcases h with ⟨_, _, _, impossible⟩
  cases impossible

theorem refuses_exactly (count : Nat) : (exactly count).Refuses fun input error =>
    input.length < count ∧ error = .truncatedInput count input.length := by
  intro input error
  rw [exactly]
  split
  · rename_i enough
    simp [Nat.not_lt.mpr enough]
  · rename_i short
    simp [Nat.not_le.mp short, eq_comm]

theorem refuses_bytes (count : Nat) : (bytes count).Refuses fun input error =>
    input.length < count ∧ error = .truncatedInput count input.length :=
  (refuses_exactly count).map Subtype.val

theorem Refuses.guard {condition : Prop} [Decidable condition] {reader : Reader α}
    {refusals : Refusals} (h : reader.Refuses refusals) (error : DecodeError) :
    (if condition then reader else throw error).Refuses fun input cause =>
      (condition ∧ refusals input cause) ∨ (¬condition ∧ cause = error) := by
  intro input cause
  by_cases holds : condition
  · simp [holds, @h input]
  · rw [if_neg holds]
    simp only [holds, false_and, not_false_eq_true, true_and, false_or]
    exact (Except.error.injEq _ _).to_iff.trans eq_comm

/-- An input that begins with a whole piece is not refused. -/
theorem Refuses.not_refused {reader : Reader α} {language : Language α} {refusals : Refusals}
    (hRefuses : reader.Refuses refusals) (hReads : reader.Reads language) {text rest : Bytes}
    {value : α} {error : DecodeError} (inLanguage : language text value) :
    ¬refusals (text ++ rest) error := by
  intro refused
  have hReader := hRefuses.mpr refused
  rw [hReads.mpr ⟨text, inLanguage, rfl⟩] at hReader
  cases hReader

/-- A read that fails at a cursor leaves it where it is. -/
theorem Refuses.run_eq_error_iff {reader : Reader α} {refusals : Refusals}
    (h : reader.Refuses refusals) {cursor advanced : Cursor} {error : DecodeError} :
    cursor.run reader = (.error error, advanced) ↔
      refusals cursor.rest error ∧ advanced = cursor := by
  rw [← h, Cursor.run]
  cases hReader : reader cursor.rest with
  | error cause => simp [eq_comm]
  | ok result => simp

end Reader

theorem Tag.refuses_read : Tag.read.Refuses fun input error =>
    input.length < Tag.size ∧ error = .truncatedInput Tag.size input.length :=
  (Reader.refuses_exactly Tag.size).map _

end Timestamping
