import Timestamping.Proofs.Record.Refusal

/-!
Streams of records. Reading goes on from record to record until the bytes end, or until something
stands there that is no record. Main statement: the items of a stream are what is read at each place
on its own, every one nine bytes or more behind the last, and a stream that ends with its bytes can
be followed by any other.
-/

namespace Timestamping

theorem Cursor.rest_behind {cursor : Cursor} {text rest : Bytes} (h : text ++ rest = cursor.rest) :
    Cursor.rest { cursor with position := cursor.position + text.length } = rest := by
  change cursor.bytes.drop (cursor.position + text.length) = rest
  rw [← List.drop_drop]
  change cursor.rest.drop text.length = rest
  rw [← h, List.drop_left]

theorem Cursor.isAtEnd_iff {cursor : Cursor} : cursor.isAtEnd = true ↔ cursor.rest = [] := by
  rw [isAtEnd, beq_iff_eq, ← length_rest, List.length_eq_zero_iff]

theorem Registry.Record.append_ne_nil {registry : Registry} {config : Config} {record : Bytes}
    {attestation : Attestation} (h : registry.Record config record attestation) (rest : Bytes) :
    record ++ rest ≠ [] := by
  have hBounds := h.length_bounds
  apply List.append_ne_nil_of_left_ne_nil
  exact List.ne_nil_of_length_pos (by omega)

namespace Codec

theorem next_eq_error_iff {codec : Codec} {cursor advanced : Cursor} {error : Error} :
    codec.next cursor = (.error error, advanced) ↔
      ∃ cause, codec.registry.Refusal codec.config cursor.rest cause ∧ error = .decode cause ∧
        advanced = cursor := by
  have refuses := codec.registry.refuses_read codec.config
  rw [next]
  constructor
  · intro h
    rcases hRun : cursor.run (codec.registry.read codec.config) with ⟨cause | attestation, place⟩
    · rw [hRun] at h
      cases h
      rcases refuses.run_eq_error_iff.mp hRun with ⟨refused, hCursor⟩
      exact ⟨cause, refused, rfl, hCursor⟩
    · rw [hRun] at h
      cases h
  · intro h
    rcases h with ⟨cause, refused, rfl, rfl⟩
    rw [refuses.run_eq_error_iff.mpr ⟨refused, rfl⟩]
    rfl

theorem first_eq_error_iff {codec : Codec} {input : Bytes} {error : Error} :
    codec.first input = .error error ↔
      ∃ cause, codec.registry.Refusal codec.config input cause ∧ error = .decode cause := by
  rw [first]
  constructor
  · intro h
    rcases hNext : codec.next (.ofBytes input) with ⟨cause | attestation, place⟩
    · rw [hNext] at h
      cases h
      rcases next_eq_error_iff.mp hNext with ⟨cause, refused, hError, _⟩
      exact ⟨cause, refused, hError⟩
    · rw [hNext] at h
      cases h
  · intro h
    rcases h with ⟨cause, refused, rfl⟩
    rw [next_eq_error_iff.mpr ⟨cause, refused, rfl, rfl⟩]
    rfl

/-! ### The items of a stream -/

/-- The items of a stream that begins at `start`: one for each record, and one more where the bytes
go on with no record. With each stands the place behind it. -/
inductive Stream (codec : Codec) : Bytes → Nat → List (Except Error Attestation × Nat) → Prop
  | ended {start : Nat} : Stream codec [] start []
  | record {text rest : Bytes} {start : Nat} {attestation : Attestation}
      {items : List (Except Error Attestation × Nat)} :
      codec.registry.Record codec.config text attestation →
      Stream codec rest (start + text.length) items →
      Stream codec (text ++ rest) start ((.ok attestation, start + text.length) :: items)
  | refused {input : Bytes} {start : Nat} {error : DecodeError} : input ≠ [] →
      codec.registry.Refusal codec.config input error →
      Stream codec input start [(.error (.decode error), start)]

theorem stream_recordsFrom (codec : Codec) (cursor : Cursor) :
    codec.Stream cursor.rest cursor.position (codec.recordsFrom cursor) := by
  fun_induction codec.recordsFrom cursor with
  | case1 cursor atEnd =>
      rw [Cursor.isAtEnd_iff.mp atEnd]
      exact .ended
  | case2 cursor more attestation advanced hNext ih =>
      have reads := codec.registry.reads_read codec.config
      rcases reads.run_eq_ok_iff.mp (next_eq_ok_iff.mp hNext) with
        ⟨text, hRecord, ⟨rest, hRest⟩, rfl⟩
      rw [Cursor.rest_behind hRest] at ih
      rw [← hRest]
      exact .record hRecord ih
  | case3 cursor more error unmoved hNext =>
      rcases next_eq_error_iff.mp hNext with ⟨cause, refused, rfl, rfl⟩
      exact .refused (mt Cursor.isAtEnd_iff.mpr more) refused

variable {codec : Codec} {input : Bytes} {start : Nat}
  {items : List (Except Error Attestation × Nat)}

/-- Bytes can be cut into the items of a stream in one way only. -/
theorem Stream.unique (h : codec.Stream input start items)
    {others : List (Except Error Attestation × Nat)} (hOthers : codec.Stream input start others) :
    items = others := by
  have reads := codec.registry.reads_read codec.config
  have refuses := codec.registry.refuses_read codec.config
  -- Both begin in the same way: no record is the beginning of another, or of what is refused.
  induction h generalizing others with
  | ended =>
      generalize hInput : [] = input at hOthers
      cases hOthers with
      | ended => rfl
      | record hRecord _ => exact absurd hInput.symm (hRecord.append_ne_nil _)
      | refused more _ => exact absurd hInput.symm more
  | @record text rest start attestation items hRecord _ ih =>
      generalize hInput : text ++ rest = input at hOthers
      cases hOthers with
      | ended => exact absurd hInput (hRecord.append_ne_nil rest)
      | record hOther hItems =>
          rcases reads.append_inj hRecord hOther hInput with ⟨rfl, rfl, rfl⟩
          rw [ih hItems]
      | refused _ refused =>
          rw [← hInput] at refused
          exact absurd refused (refuses.not_refused reads hRecord)
  | @refused input start error more refused =>
      cases hOthers with
      | ended => exact absurd rfl more
      | record hRecord _ => exact absurd refused (refuses.not_refused reads hRecord)
      | refused _ other =>
          have same := refuses.mpr refused
          rw [refuses.mpr other] at same
          cases same
          rfl

theorem stream_records (codec : Codec) (input : Bytes) :
    codec.Stream input 0 (codec.records input) :=
  codec.stream_recordsFrom (.ofBytes input)

theorem records_eq_iff : codec.records input = items ↔ codec.Stream input 0 items := by
  constructor
  · intro h
    exact h ▸ codec.stream_records input
  · exact (codec.stream_records input).unique

/-! ### Streams behind one another -/

theorem Stream.shift (h : codec.Stream input start items) (offset : Nat) :
    codec.Stream input (offset + start) (items.map fun item => (item.1, offset + item.2)) := by
  induction h with
  | ended => exact .ended
  | record hRecord _ ih =>
      rw [← Nat.add_assoc] at ih
      rw [List.map_cons, ← Nat.add_assoc]
      exact .record hRecord ih
  | refused more refused => exact .refused more refused

theorem Stream.append (h : codec.Stream input start items) (clean : ∀ item ∈ items, item.1.isOk)
    {others : Bytes} {more : List (Except Error Attestation × Nat)}
    (hMore : codec.Stream others (start + input.length) more) :
    codec.Stream (input ++ others) start (items ++ more) := by
  induction h with
  | ended => exact hMore
  | record hRecord _ ih =>
      rw [List.length_append, ← Nat.add_assoc] at hMore
      rw [List.append_assoc, List.cons_append]
      exact .record hRecord (ih (List.forall_mem_cons.mp clean).2 hMore)
  | refused _ _ => exact absurd (clean _ List.mem_cons_self) nofun

/-! ### Places in a stream -/

/-- The attestations that a stream gives, each with the place behind its record. -/
def successes (items : List (Except Error Attestation × Nat)) : List (Attestation × Nat) :=
  items.filterMap fun item => item.1.toOption.map fun attestation => (attestation, item.2)

/-- The place behind some items of a stream, which is where the next one begins. -/
def behind (start : Nat) : List (Except Error Attestation × Nat) → Nat
  | [] => start
  | item :: items => behind item.2 items

theorem Stream.length_successes (h : codec.Stream input start items) :
    9 * (successes items).length ≤ input.length := by
  induction h with
  | ended => exact Nat.le_refl _
  | @record text rest start attestation items hRecord _ ih =>
      have hBounds := hRecord.length_bounds
      change 9 * ((successes items).length + 1) ≤ _
      rw [List.length_append]
      omega
  | refused _ _ => exact Nat.zero_le _

theorem Stream.isChain_places (h : codec.Stream input start items) :
    (start :: (successes items).map Prod.snd).IsChain (· < ·) := by
  induction h with
  | ended => exact .singleton _
  | record hRecord _ ih =>
      have hBounds := hRecord.length_bounds
      exact .cons_cons (Nat.lt_add_of_pos_right (by omega)) ih
  | refused _ _ => exact .singleton _

theorem Stream.behind_eq (h : codec.Stream input start items)
    (clean : ∀ item ∈ items, item.1.isOk) : behind start items = start + input.length := by
  induction h with
  | ended => rfl
  | record _ _ ih =>
      rw [behind, ih (List.forall_mem_cons.mp clean).2, List.length_append, Nat.add_assoc]
  | refused _ _ => exact absurd (clean _ List.mem_cons_self) nofun

/-- Whatever item is looked at, a stream begins with it where the item before it ends. -/
theorem Stream.exists_drop {before after : List (Except Error Attestation × Nat)}
    {item : Except Error Attestation × Nat}
    (h : codec.Stream input start (before ++ item :: after)) :
    ∃ count, behind start before = start + count ∧
      codec.Stream (input.drop count) (behind start before) (item :: after) := by
  induction before generalizing input start with
  | nil => exact ⟨0, rfl, h⟩
  | cons first before ih =>
      generalize hItems : first :: before ++ item :: after = items at h
      cases h with
      | ended => cases hItems
      | @record text rest _ attestation items hRecord hRest =>
          cases hItems
          rcases ih hRest with ⟨count, hBehind, hStream⟩
          refine ⟨text.length + count, ?_, ?_⟩
          · rw [behind, hBehind, Nat.add_assoc]
          · rw [← List.drop_drop, List.drop_left]
            exact hStream
      | refused _ _ =>
          have hAfter : before ++ item :: after = [] := (List.cons.inj hItems).2
          exact absurd hAfter
            (List.append_ne_nil_of_right_ne_nil before (List.cons_ne_nil item after))

theorem stream_drop_records {before after : List (Except Error Attestation × Nat)}
    {item : Except Error Attestation × Nat} (h : codec.records input = before ++ item :: after) :
    codec.Stream (input.drop (behind 0 before)) (behind 0 before) (item :: after) := by
  rcases (records_eq_iff.mp h).exists_drop with ⟨count, hBehind, hStream⟩
  rw [Nat.zero_add] at hBehind
  rw [← hBehind] at hStream
  exact hStream

theorem Stream.first_of_ok {attestation : Attestation} {stop : Nat}
    (h : codec.Stream input start ((.ok attestation, stop) :: items)) :
    start < stop ∧ codec.first input = .ok (attestation, stop - start) := by
  cases h with
  | @record text rest _ _ _ hRecord _ =>
      have hBounds := hRecord.length_bounds
      refine ⟨by omega, first_eq_ok_iff.mpr ⟨text, hRecord, List.prefix_append text rest, ?_⟩⟩
      omega

theorem Stream.first_of_error {error : Error} {stop : Nat}
    (h : codec.Stream input start ((.error error, stop) :: items)) :
    items = [] ∧ stop = start ∧ codec.first input = .error error := by
  cases h with
  | refused _ refused => exact ⟨rfl, rfl, first_eq_error_iff.mpr ⟨_, refused, rfl⟩⟩

/-! ### One record -/

theorem head?_records_eq_ok_iff {attestation : Attestation} {count : Nat} :
    (codec.records input).head? = some (.ok attestation, count) ↔
      codec.first input = .ok (attestation, count) := by
  constructor
  · intro h
    rcases List.head?_eq_some_iff.mp h with ⟨items, hItems⟩
    exact (records_eq_iff.mp hItems).first_of_ok.2
  · intro h
    rcases first_eq_ok_iff.mp h with ⟨text, hRecord, ⟨rest, rfl⟩, rfl⟩
    have hRest := (codec.stream_records rest).shift (0 + text.length)
    rw [records_eq_iff.mpr (.record hRecord hRest), List.head?_cons, Nat.zero_add]

theorem map_records_eq_singleton_iff {attestation : Attestation} :
    (codec.records input).map Prod.fst = [.ok attestation] ↔
      codec.decode input = .ok attestation := by
  rw [decode_eq_ok_iff]
  constructor
  · intro h
    rcases List.map_eq_singleton_iff.mp h with ⟨⟨_, stop⟩, hItems, rfl⟩
    cases records_eq_iff.mp hItems with
    | @record text _ _ _ _ hRecord hRest =>
        cases hRest
        rw [List.append_nil]
        exact hRecord
  · intro hRecord
    have hStream : codec.Stream (input ++ []) 0 [(.ok attestation, 0 + input.length)] :=
      .record hRecord .ended
    rw [List.append_nil] at hStream
    rw [records_eq_iff.mpr hStream]
    rfl

theorem decode_eq_trailingBytes_iff {consumed remaining : Nat} :
    codec.decode input = .error (.trailingBytes consumed remaining) ↔
      (∃ attestation, codec.first input = .ok (attestation, consumed)) ∧
        consumed < input.length ∧ consumed + remaining = input.length := by
  rw [decode]
  cases hFirst : codec.first input with
  | error error =>
      rcases first_eq_error_iff.mp hFirst with ⟨cause, _, rfl⟩
      constructor
      · intro h
        cases h
      · intro h
        rcases h with ⟨⟨_, impossible⟩, _⟩
        cases impossible
  | ok result =>
      obtain ⟨attestation, count⟩ := result
      rcases first_eq_ok_iff.mp hFirst with ⟨text, _, hPrefix, rfl⟩
      have hLength := hPrefix.length_le
      change (if text.length = input.length then _ else _) = _ ↔ _
      split
      · rename_i whole
        constructor
        · intro h
          cases h
        · intro h
          rcases h with ⟨⟨_, same⟩, short, _⟩
          cases same
          omega
      · rename_i longer
        constructor
        · intro h
          cases h
          exact ⟨⟨attestation, rfl⟩, by omega, by omega⟩
        · intro h
          rcases h with ⟨⟨_, same⟩, _, hRemaining⟩
          cases same
          have hRest : input.length - text.length = remaining := by omega
          rw [hRest]
          rfl

/-- A stream gives what is read at the front of the bytes, then at the front of what follows, and so
on. Each record takes nine bytes or more, and a refusal is the last item and takes none. A stream of
nothing but records can be followed by another, and one record alone is what is decoded. -/
theorem records_iterate_first (codec : Codec) (input : Bytes) :
    (successes (codec.records input)).length ≤ input.length / 9 ∧
    (0 :: (successes (codec.records input)).map Prod.snd).Pairwise (· < ·) ∧
    (∀ before attestation stop after,
      codec.records input = before ++ (.ok attestation, stop) :: after →
      behind 0 before < stop ∧
        codec.first (input.drop (behind 0 before)) =
          .ok (attestation, stop - behind 0 before)) ∧
    (∀ before error stop after, codec.records input = before ++ (.error error, stop) :: after →
      after = [] ∧ stop = behind 0 before ∧ codec.first (input.drop stop) = .error error) ∧
    ((∀ item ∈ codec.records input, item.1.isOk) →
      behind 0 (codec.records input) = input.length ∧
        ∀ more, codec.records (input ++ more) = codec.records input ++
          (codec.records more).map fun item => (item.1, input.length + item.2)) ∧
    (∀ attestation, codec.decode input = .ok attestation ↔
      (codec.records input).map Prod.fst = [.ok attestation]) ∧
    ∀ consumed remaining, codec.decode input = .error (.trailingBytes consumed remaining) ↔
      (∃ attestation, (codec.records input).head? = some (.ok attestation, consumed)) ∧
        consumed < input.length ∧ consumed + remaining = input.length := by
  have hStream := codec.stream_records input
  refine ⟨?_, List.isChain_iff_pairwise.mp hStream.isChain_places, ?_, ?_, ?_, ?_, ?_⟩
  · have hLength := hStream.length_successes
    omega
  · intro before attestation stop after hItems
    exact (stream_drop_records hItems).first_of_ok
  · intro before error stop after hItems
    rcases (stream_drop_records hItems).first_of_error with ⟨hAfter, rfl, hFirst⟩
    exact ⟨hAfter, rfl, hFirst⟩
  · intro clean
    have hBehind := hStream.behind_eq clean
    rw [Nat.zero_add] at hBehind
    refine ⟨hBehind, ?_⟩
    intro more
    apply records_eq_iff.mpr
    apply hStream.append clean
    rw [Nat.add_comm]
    exact (codec.stream_records more).shift input.length
  · intro attestation
    exact map_records_eq_singleton_iff.symm
  · intro consumed remaining
    simp only [head?_records_eq_ok_iff]
    exact decode_eq_trailingBytes_iff

/-- Two records and the beginning of a third. -/
example : ({} : Codec).records
    (Tag.bitcoin.bytes ++ [0x01, 0x07] ++ [1, 2, 3, 4, 5, 6, 7, 8, 0x00] ++ [0x05, 0x88]) =
      [(.ok (.bitcoin 7), 10), (.ok (.unknown ⟨[1, 2, 3, 4, 5, 6, 7, 8], rfl⟩ []), 19),
        (.error (.decode (.truncatedInput 8 2)), 19)] := by cbv

end Codec

end Timestamping
