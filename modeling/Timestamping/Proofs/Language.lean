import Timestamping.Tag
import Timestamping.Wire.Cursor

/-!
Languages of readers. A language says which byte strings are a whole piece of input and what each
of them means. A reader reads a language when it takes such a piece off the front, whatever stands
behind it, and fails on every input that begins with none. Main statements: what is read one after
another is the concatenation of its languages, and a byte string is used up exactly when it is a
whole piece.
-/

namespace Timestamping

/-- Which byte strings are whole pieces of input, and what they say. -/
abbrev Language (α : Type) := Bytes → α → Prop

namespace Language

variable {α β : Type}

/-- A piece whose language depends on what the piece in front of it says. -/
def bind (first : Language α) (next : α → Language β) : Language β := fun text value =>
  ∃ front middle back, first front middle ∧ next middle back value ∧ front ++ back = text

def map (change : α → β) (language : Language α) : Language β := fun text value =>
  ∃ first, language text first ∧ change first = value

end Language

namespace Reader

variable {α β : Type}

def Reads (reader : Reader α) (language : Language α) : Prop :=
  ∀ ⦃input value rest⦄, reader input = .ok (value, rest) ↔
    ∃ text, language text value ∧ text ++ rest = input

/-- No piece is the beginning of another one, and none says two things. -/
theorem Reads.append_inj {reader : Reader α} {language : Language α} (h : reader.Reads language)
    {first second firstRest secondRest : Bytes} {firstValue secondValue : α}
    (hFirst : language first firstValue) (hSecond : language second secondValue)
    (same : first ++ firstRest = second ++ secondRest) :
    first = second ∧ firstValue = secondValue ∧ firstRest = secondRest := by
  have hReader : reader (first ++ firstRest) = .ok (firstValue, firstRest) :=
    h.mpr ⟨first, hFirst, rfl⟩
  rw [h.mpr ⟨second, hSecond, same.symm⟩] at hReader
  cases hReader
  exact ⟨List.append_cancel_right same, rfl, rfl⟩

theorem Reads.congr {reader : Reader α} {first second : Language α} (h : reader.Reads first)
    (same : ∀ text value, first text value ↔ second text value) : reader.Reads second := by
  intro input value rest
  rw [h]
  simp only [same]

theorem Reads.bind {reader : Reader α} {next : α → Reader β} {first : Language α}
    {second : α → Language β} (hFirst : reader.Reads first)
    (hSecond : ∀ value, (next value).Reads (second value)) :
    (reader >>= next).Reads (first.bind second) := by
  intro input value rest
  rw [bind_eq_ok_iff]
  constructor
  · intro h
    rcases h with ⟨middle, between, hReader, hNext⟩
    rcases hFirst.mp hReader with ⟨front, inFirst, rfl⟩
    rcases (hSecond middle).mp hNext with ⟨back, inSecond, rfl⟩
    exact ⟨front ++ back, ⟨front, middle, back, inFirst, inSecond, rfl⟩,
      List.append_assoc front back rest⟩
  · intro h
    rcases h with ⟨text, ⟨front, middle, back, inFirst, inSecond, rfl⟩, rfl⟩
    have hReader := hFirst.mpr ⟨front, inFirst, (List.append_assoc front back rest).symm⟩
    exact ⟨middle, back ++ rest, hReader, (hSecond middle).mpr ⟨back, inSecond, rfl⟩⟩

theorem Reads.map {reader : Reader α} {language : Language α} (h : reader.Reads language)
    (change : α → β) : (change <$> reader).Reads (language.map change) := by
  intro input value rest
  rw [map_eq_ok_iff]
  constructor
  · intro hChanged
    rcases hChanged with ⟨first, hReader, rfl⟩
    rcases h.mp hReader with ⟨text, inLanguage, rfl⟩
    exact ⟨text, ⟨first, inLanguage, rfl⟩, rfl⟩
  · intro hChanged
    rcases hChanged with ⟨text, ⟨first, inLanguage, rfl⟩, rfl⟩
    exact ⟨first, h.mpr ⟨text, inLanguage, rfl⟩, rfl⟩

theorem Reads.mapError {reader : Reader α} {language : Language α} (h : reader.Reads language)
    (describe : DecodeError → DecodeError) : (reader.mapError describe).Reads language := by
  intro input value rest
  rw [mapError_eq_ok_iff, h]

theorem reads_lift (result : Except DecodeError α) :
    (liftM result : Reader α).Reads fun text value => text = [] ∧ result = .ok value := by
  intro input value rest
  rw [lift_eq_ok_iff]
  constructor
  · intro h
    rcases h with ⟨hResult, rfl⟩
    exact ⟨[], ⟨rfl, hResult⟩, rfl⟩
  · intro h
    rcases h with ⟨text, ⟨rfl, hResult⟩, hInput⟩
    exact ⟨hResult, hInput.symm⟩

theorem reads_check (value : α) (check : Except DecodeError Unit) :
    (do let _ ← check; pure value : Reader α).Reads fun text result =>
      text = [] ∧ check = .ok () ∧ result = value := by
  intro input result rest
  cases check with
  | error error =>
      constructor
      · intro h
        cases h
      · intro h
        rcases h with ⟨_, ⟨_, impossible, _⟩, _⟩
        cases impossible
  | ok passed =>
      constructor
      · intro h
        cases h
        exact ⟨[], ⟨rfl, rfl, rfl⟩, rfl⟩
      · intro h
        rcases h with ⟨text, ⟨rfl, _, rfl⟩, rfl⟩
        rfl

theorem reads_bytes (count : Nat) :
    (bytes count).Reads fun text value => value.length = count ∧ text = value := by
  intro input value rest
  rw [bytes_eq_ok_iff]
  constructor
  · intro h
    rcases h with ⟨hCount, rfl⟩
    exact ⟨value, ⟨hCount, rfl⟩, rfl⟩
  · intro h
    rcases h with ⟨text, ⟨hCount, rfl⟩, rfl⟩
    exact ⟨hCount, rfl⟩

theorem reads_throw (error : DecodeError) : (throw error : Reader α).Reads fun _ _ => False := by
  intro input value rest
  constructor
  · intro h
    cases h
  · intro h
    rcases h with ⟨text, impossible, _⟩
    cases impossible

theorem Reads.guard {condition : Prop} [Decidable condition] {reader : Reader α}
    {language : Language α} (h : reader.Reads language) (error : DecodeError) :
    (if condition then reader else throw error).Reads fun text value =>
      condition ∧ language text value := by
  by_cases holds : condition
  · rw [if_pos holds]
    exact h.congr fun text value => (and_iff_right holds).symm
  · rw [if_neg holds]
    apply (reads_throw error).congr
    intro text value
    rw [false_iff, not_and]
    exact fun impossible => absurd impossible holds

theorem readAll_eq_ok_iff {reader : Reader α} {input : Bytes} {value : α} :
    reader.readAll input = .ok value ↔ reader input = .ok (value, []) := by
  rw [readAll]
  cases hReader : reader input with
  | error error => simp only [bind, Except.bind, reduceCtorEq]
  | ok result =>
      rcases result with ⟨first, rest⟩
      cases rest with
      | nil => simp [bind, Except.bind, pure, Except.pure, expectEnd]
      | cons byte tail => simp [bind, Except.bind, expectEnd]

theorem Reads.readAll {reader : Reader α} {language : Language α} (h : reader.Reads language)
    {input : Bytes} {value : α} : reader.readAll input = .ok value ↔ language input value := by
  rw [readAll_eq_ok_iff, h]
  simp only [List.append_nil, exists_eq_right]

/-- A read that succeeds at a cursor moves it behind the piece that it read. -/
theorem Reads.run_eq_ok_iff {reader : Reader α} {language : Language α} (h : reader.Reads language)
    {cursor advanced : Cursor} {value : α} :
    cursor.run reader = (.ok value, advanced) ↔
      ∃ text, language text value ∧ text <+: cursor.rest ∧
        advanced = { cursor with position := cursor.position + text.length } := by
  have hLength := cursor.length_rest
  constructor
  · intro hRun
    rw [Cursor.run] at hRun
    split at hRun
    · rename_i first rest hReader
      rcases h.mp hReader with ⟨text, inLanguage, hInput⟩
      rw [← hInput, List.length_append] at hLength
      have hCount : cursor.remaining - rest.length = text.length := by omega
      rw [hCount] at hRun
      obtain ⟨hValue, hCursor⟩ := Prod.mk.inj hRun
      exact ⟨text, Except.ok.inj hValue ▸ inLanguage, ⟨rest, hInput⟩, hCursor.symm⟩
    · cases hRun
  · intro hText
    rcases hText with ⟨text, inLanguage, ⟨rest, hInput⟩, rfl⟩
    have hReader := h.mpr ⟨text, inLanguage, hInput⟩
    rw [← hInput, List.length_append] at hLength
    have hCount : cursor.remaining - rest.length = text.length := by omega
    simp only [Cursor.run, hReader, hCount]

theorem Reads.run_ofBytes_eq_ok_iff {reader : Reader α} {language : Language α}
    (h : reader.Reads language) {input : Bytes} {value : α} {count : Nat} :
    (Cursor.ofBytes input).run reader = (.ok value, ⟨input, count⟩) ↔
      ∃ text, language text value ∧ text <+: input ∧ text.length = count := by
  rw [h.run_eq_ok_iff]
  simp only [Cursor.ofBytes, Cursor.rest, List.drop_zero, Nat.zero_add, Cursor.mk.injEq, true_and,
    eq_comm]

end Reader

theorem Tag.reads_read : Tag.read.Reads fun text tag => text = tag.bytes := by
  intro input tag rest
  rw [read_eq_ok_iff]
  simp only [exists_eq_left, eq_comm]

end Timestamping
