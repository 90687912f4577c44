import Timestamping.Proofs.Utf8.Validity

/-!
Where text stops. Any bytes are text up to the first piece that is no character, and from there on
they are text again, or stop again. Main statement: a fault tells how far the bytes are text, whether
more bytes could still make text of all of them, and how many bytes the readable form gives up for
U+FFFD; and which bytes begin a text settles all three.
-/

namespace Timestamping.Utf8

/-- Some text begins with these bytes. -/
def Begins (bytes : Bytes) : Prop :=
  ∃ more, IsText (bytes ++ more)

/-! ### Text in front -/

theorem firstFault?_scalars_append (index : Nat) (text : Text) (pieces : List Segment) :
    firstFault? index (text.map .scalar ++ pieces) =
      firstFault? (index + (encode text).length) pieces := by
  induction text generalizing index with
  | nil => rfl
  | cons character text ih =>
      have hLength : (encode (character :: text)).length =
          character.utf8Size + (encode text).length := by
        rw [encode, List.flatMap_cons, List.length_append, String.length_utf8EncodeChar]
        rfl
      rw [List.map_cons, List.cons_append, firstFault?, ih, hLength, Nat.add_assoc]

theorem fault?_encode_append (text : Text) (rest : Bytes) :
    fault? (encode text ++ rest) = firstFault? (encode text).length (segments rest) := by
  rw [fault?, segments_encode_append, firstFault?_scalars_append, Nat.zero_add]

theorem isText_encode_append_iff {text : Text} {rest : Bytes} :
    IsText (encode text ++ rest) ↔ IsText rest := by
  rw [← fault?_eq_none_iff, ← fault?_eq_none_iff, fault?_encode_append, fault?,
    firstFault?_eq_none_iff, firstFault?_eq_none_iff]

theorem begins_encode_append_iff {text : Text} {rest : Bytes} :
    Begins (encode text ++ rest) ↔ Begins rest := by
  simp only [Begins, List.append_assoc, isText_encode_append_iff]

theorem readable_encode_append (text : Text) (rest : Bytes) :
    readable (encode text ++ rest) = text ++ readable rest := by
  have same : (text.map Segment.scalar).map Segment.readable = text := by
    rw [List.map_map]
    exact List.map_id text
  rw [readable, segments_encode_append, List.map_append, same]
  rfl

theorem readable_encode (text : Text) : readable (encode text) = text := by
  have hReadable := readable_encode_append text []
  rw [List.append_nil] at hReadable
  rw [hReadable, readable, segments]
  exact List.append_nil text

theorem encode_injective {first second : Text} (h : encode first = encode second) :
    first = second := by
  rw [← readable_encode first, h, readable_encode]

theorem encode_readable_eq_iff {bytes : Bytes} : encode (readable bytes) = bytes ↔ IsText bytes := by
  constructor
  · intro h
    exact ⟨_, h⟩
  · intro h
    rcases h with ⟨text, rfl⟩
    rw [readable_encode]

theorem exists_scalar_of_isText {byte : UInt8} {input : Bytes} (h : IsText (byte :: input)) :
    ∃ character rest, segment byte input = (.scalar character, rest) := by
  rcases h with ⟨text, hText⟩
  cases text with
  | nil => cases hText
  | cons character text => exact ⟨character, encode text, segment_eq_scalar_iff.mpr hText⟩

theorem segment_append_of_scalar {byte : UInt8} {input rest : Bytes} {character : Char}
    (h : segment byte input = (.scalar character, rest)) (more : Bytes) :
    segment byte (input ++ more) = (.scalar character, rest ++ more) := by
  rw [segment_eq_scalar_iff] at h ⊢
  rw [← List.append_assoc, h, List.cons_append]

/-! ### A piece that is no character -/

theorem exists_of_complete_eq_malformed {value : Nat} {taken : Bytes} {following : List ByteRange}
    {input piece rest : Bytes} (h : complete value taken following input = (.malformed piece, rest)) :
    ∃ front range back tail next others, following = front ++ range :: back ∧ Follow front tail ∧
      ¬range.contains next = true ∧ taken ++ tail = piece ∧ next :: others = rest ∧
      tail ++ rest = input := by
  fun_induction complete value taken following input with
  | case1 => cases h
  | case2 => cases h
  | case3 value taken range following byte input inRange ih =>
      rcases ih h with ⟨front, other, back, tail, next, others, hFollowing, hTail, outside, hPiece,
        hRest, hInput⟩
      refine ⟨range :: front, other, back, byte :: tail, next, others, ?_, .cons inRange hTail,
        outside, ?_, hRest, ?_⟩
      · rw [hFollowing, List.cons_append]
      · rw [← hPiece, List.append_assoc, List.singleton_append]
      · rw [← hInput, List.cons_append]
  | case4 value taken range following byte input outside =>
      cases h
      exact ⟨[], range, following, [], byte, input, rfl, .nil, outside, List.append_nil _, rfl, rfl⟩

/-- A byte out of range ends the piece, whatever stands behind it. -/
theorem complete_eq_malformed {value : Nat} {taken tail : Bytes} {front back : List ByteRange}
    {range : ByteRange} {next : UInt8} (hTail : Follow front tail)
    (outside : ¬range.contains next = true) (others : Bytes) :
    complete value taken (front ++ range :: back) (tail ++ next :: others) =
      (.malformed (taken ++ tail), next :: others) := by
  induction hTail generalizing value taken with
  | nil =>
      rw [List.nil_append, List.nil_append, complete, if_neg outside, List.append_nil]
  | @cons first byte front tail inRange hTail ih =>
      rw [List.cons_append, List.cons_append, complete, if_pos inRange, ih, List.append_assoc,
        List.singleton_append]

theorem exists_of_complete_eq_incomplete {value : Nat} {taken : Bytes}
    {following : List ByteRange} {input piece rest : Bytes}
    (h : complete value taken following input = (.incomplete piece, rest)) :
    ∃ front back, following = front ++ back ∧ Follow front input ∧ taken ++ input = piece ∧
      rest = [] := by
  fun_induction complete value taken following input with
  | case1 => cases h
  | case2 value taken range following =>
      cases h
      exact ⟨[], range :: following, rfl, .nil, List.append_nil _, rfl⟩
  | case3 value taken range following byte input inRange ih =>
      rcases ih h with ⟨front, back, hFollowing, hInput, hPiece, hRest⟩
      refine ⟨range :: front, back, ?_, .cons inRange hInput, ?_, hRest⟩
      · rw [hFollowing, List.cons_append]
      · rw [← hPiece, List.append_assoc, List.singleton_append]
  | case4 => cases h

theorem exists_contains_of_mem {byte : UInt8} {lead : Lead} (h : lead? byte = some lead) :
    ∀ range ∈ lead.following, ∃ next, range.contains next = true := by
  have hContinuation : ∃ next, continuation.contains next = true := ⟨0x80, by decide⟩
  have hThree : ∃ next, (secondOfThree byte).contains next = true := by
    rw [secondOfThree]
    split
    · exact ⟨0xA0, by decide⟩
    split
    · exact ⟨0x80, by decide⟩
    · exact hContinuation
  have hFour : ∃ next, (secondOfFour byte).contains next = true := by
    rw [secondOfFour]
    split
    · exact ⟨0x90, by decide⟩
    split
    · exact ⟨0x80, by decide⟩
    · exact hContinuation
  rw [lead?_eq] at h
  split at h
  · obtain rfl := Option.some.inj h
    exact List.forall_mem_nil _
  split at h
  · cases h
  split at h
  · obtain rfl := Option.some.inj h
    exact List.forall_mem_singleton.mpr hContinuation
  split at h
  · obtain rfl := Option.some.inj h
    exact List.forall_mem_cons.mpr ⟨hThree, List.forall_mem_singleton.mpr hContinuation⟩
  split at h
  · obtain rfl := Option.some.inj h
    exact List.forall_mem_cons.mpr
      ⟨hFour, List.forall_mem_cons.mpr ⟨hContinuation, List.forall_mem_singleton.mpr hContinuation⟩⟩
  · cases h

theorem exists_follow {ranges : List ByteRange}
    (h : ∀ range ∈ ranges, ∃ next, range.contains next = true) : ∃ tail, Follow ranges tail := by
  induction ranges with
  | nil => exact ⟨[], .nil⟩
  | cons range ranges ih =>
      obtain ⟨⟨next, inRange⟩, hRanges⟩ := List.forall_mem_cons.mp h
      rcases ih hRanges with ⟨tail, hTail⟩
      exact ⟨next :: tail, .cons inRange hTail⟩

/-- As long as each byte lies where the first one asks, a character can still come of it. -/
theorem begins_of_follow {byte : UInt8} {lead : Lead} (hLead : lead? byte = some lead)
    {front back : List ByteRange} (hFollowing : lead.following = front ++ back) {tail : Bytes}
    (hTail : Follow front tail) : Begins (byte :: tail) := by
  have hBack : ∀ range ∈ back, ∃ next, range.contains next = true := by
    intro range member
    apply exists_contains_of_mem hLead
    rw [hFollowing]
    exact List.mem_append_right front member
  rcases exists_follow hBack with ⟨more, hMore⟩
  have hWhole : Follow lead.following (tail ++ more) := by
    rw [hFollowing]
    exact List.rel_append hTail hMore
  refine ⟨more, [Char.ofNat (join lead.bits (tail ++ more))], ?_⟩
  rw [encode, List.flatMap_singleton, (form_of_follow hLead hWhole).encodeChar]
  rfl

/-- So many of the bytes are given up together: one, or as many as begin some text, and with one
byte more they begin none. -/
structure Breaks (bytes : Bytes) (length : Nat) : Prop where
  pos : 0 < length
  length_le : length ≤ bytes.length
  begins : length = 1 ∨ Begins (bytes.take length)
  ends : ∀ count, length < count → ¬Begins (bytes.take count)

theorem Breaks.not_begins {bytes : Bytes} {length : Nat} (h : Breaks bytes length) :
    ¬Begins bytes := by
  have hEnds := h.ends (bytes.length + 1) (Nat.lt_succ_of_le h.length_le)
  rw [List.take_of_length_le (Nat.le_succ _)] at hEnds
  exact hEnds

theorem not_begins_of_segment {byte : UInt8} {tail : Bytes}
    (h : ∀ more, ∃ piece rest, segment byte (tail ++ more) = (.malformed piece, rest)) :
    ¬Begins (byte :: tail) := by
  intro begins
  rcases begins with ⟨more, isText⟩
  rcases h more with ⟨piece, rest, hMalformed⟩
  rw [List.cons_append] at isText
  rcases exists_scalar_of_isText isText with ⟨character, after, hScalar⟩
  rw [hMalformed] at hScalar
  cases hScalar

theorem breaks_of_segment {byte : UInt8} {input piece rest : Bytes}
    (h : segment byte input = (.malformed piece, rest)) :
    Breaks (byte :: input) piece.length ∧ piece ++ rest = byte :: input := by
  rw [segment] at h
  cases hLead : lead? byte with
  | none =>
      rw [hLead] at h
      cases h
      refine ⟨⟨Nat.one_pos, Nat.succ_le_succ (Nat.zero_le _), .inl rfl, ?_⟩, rfl⟩
      intro count longer
      obtain ⟨count, rfl⟩ := Nat.exists_eq_succ_of_ne_zero (Nat.ne_of_gt (Nat.lt_of_succ_lt longer))
      rw [List.take_succ_cons]
      apply not_begins_of_segment
      intro more
      exact ⟨[byte], _, by rw [segment, hLead]⟩
  | some lead =>
      rw [hLead] at h
      rcases exists_of_complete_eq_malformed h with ⟨front, range, back, tail, next, others,
        hFollowing, hTail, outside, rfl, rfl, rfl⟩
      have hLength : (byte :: tail).length ≤ (byte :: tail ++ next :: others).length :=
        (List.prefix_append _ _).length_le
      refine ⟨⟨Nat.succ_pos _, hLength, .inr ?_, ?_⟩, rfl⟩
      · change Begins ((byte :: tail ++ next :: others).take (byte :: tail).length)
        rw [List.take_left]
        exact begins_of_follow hLead hFollowing hTail
      · intro count longer
        obtain ⟨more, rfl⟩ := Nat.exists_eq_add_of_lt longer
        change ¬Begins ((byte :: tail ++ next :: others).take ((byte :: tail).length + (more + 1)))
        rw [List.take_length_add_append, List.take_succ_cons, List.cons_append]
        apply not_begins_of_segment
        intro rest
        rw [segment, hLead, List.append_assoc, List.cons_append]
        dsimp only
        rw [hFollowing]
        exact ⟨_, _, complete_eq_malformed hTail outside _⟩

theorem begins_of_segment {byte : UInt8} {input piece rest : Bytes}
    (h : segment byte input = (.incomplete piece, rest)) :
    Begins (byte :: input) ∧ rest = [] := by
  rw [segment] at h
  cases hLead : lead? byte with
  | none =>
      rw [hLead] at h
      cases h
  | some lead =>
      rw [hLead] at h
      rcases exists_of_complete_eq_incomplete h with ⟨front, back, hFollowing, hInput, _, hRest⟩
      exact ⟨begins_of_follow hLead hFollowing hInput, hRest⟩

/-! ### The first fault -/

/-- Bytes that no character begins. -/
def Stops (bytes : Bytes) : Prop :=
  ∃ byte input, bytes = byte :: input ∧
    ∀ character rest, segment byte input ≠ (.scalar character, rest)

theorem exists_text_in_front (bytes : Bytes) :
    ∃ text rest, encode text ++ rest = bytes ∧ (rest = [] ∨ Stops rest) := by
  fun_induction segments bytes with
  | case1 => exact ⟨[], [], rfl, .inl rfl⟩
  | case2 byte input ih =>
      rcases hSegment : segment byte input with ⟨piece, after⟩
      by_cases scalar : ∃ character, piece = .scalar character
      · rcases scalar with ⟨character, rfl⟩
        rw [hSegment] at ih
        rcases ih with ⟨text, rest, rfl, hRest⟩
        refine ⟨character :: text, rest, ?_, hRest⟩
        rw [← segment_eq_scalar_iff.mp hSegment, encode, List.flatMap_cons, List.append_assoc]
        rfl
      · refine ⟨[], byte :: input, rfl, .inr ⟨byte, input, rfl, ?_⟩⟩
        intro character rest same
        rw [hSegment] at same
        exact scalar ⟨character, congrArg Prod.fst same⟩

/-- No text, however short, stands at the front of such bytes. -/
theorem Stops.not_isText_take {bytes : Bytes} (h : Stops bytes) {count : Nat} (hPos : 0 < count) :
    ¬IsText (bytes.take count) := by
  rcases h with ⟨byte, input, rfl, stops⟩
  obtain ⟨count, rfl⟩ := Nat.exists_eq_succ_of_ne_zero (Nat.ne_of_gt hPos)
  rw [List.take_succ_cons]
  intro isText
  rcases exists_scalar_of_isText isText with ⟨character, rest, hScalar⟩
  have hWhole := segment_append_of_scalar hScalar (input.drop count)
  rw [List.take_append_drop] at hWhole
  exact stops character _ hWhole

def Fault.index : Fault → Nat
  | .malformed index _ => index
  | .incomplete index => index

/-- What is readable from a fault on. -/
def Fault.readable (bytes : Bytes) : Fault → Text
  | .malformed index length => '\uFFFD' :: Utf8.readable (bytes.drop (index + length))
  | .incomplete _ => ['\uFFFD']

/-- What a fault tells of the bytes that it was found in. -/
structure Fault.Describes (bytes : Bytes) (fault : Fault) : Prop where
  isText : IsText (bytes.take fault.index)
  longest : ∀ count, count ≤ bytes.length → IsText (bytes.take count) → count ≤ fault.index
  incomplete_iff : (∃ index, fault = .incomplete index) ↔ Begins bytes
  breaks : ∀ index length, fault = .malformed index length → Breaks (bytes.drop index) length
  readable_eq : ∃ text, encode text = bytes.take fault.index ∧
    Utf8.readable bytes = text ++ fault.readable bytes

theorem Stops.le_length_of_isText {rest : Bytes} (h : Stops rest) {text : Text} {count : Nat}
    (isText : IsText ((encode text ++ rest).take count)) : count ≤ (encode text).length := by
  by_contra longer
  obtain ⟨more, rfl⟩ := Nat.exists_eq_add_of_lt (Nat.not_le.mp longer)
  rw [Nat.add_assoc, List.take_length_add_append, isText_encode_append_iff] at isText
  exact h.not_isText_take (Nat.succ_pos more) isText

/-- Behind a text, only what it stops at has to be described. -/
theorem Stops.describes {rest : Bytes} (h : Stops rest) {text : Text} {fault : Fault}
    (hIndex : fault.index = (encode text).length)
    (hForm : (∃ index, fault = .incomplete index) ↔ Begins rest)
    (hBreaks : ∀ index length, fault = .malformed index length → Breaks rest length)
    (hReadable : readable rest = fault.readable (encode text ++ rest)) :
    fault.Describes (encode text ++ rest) := by
  have hTake : (encode text ++ rest).take fault.index = encode text := by
    rw [hIndex]
    exact List.take_left
  constructor
  case isText => exact ⟨text, hTake.symm⟩
  case longest =>
    intro count _ isText
    rw [hIndex]
    exact h.le_length_of_isText isText
  case incomplete_iff => rw [begins_encode_append_iff, hForm]
  case breaks =>
    rintro index length rfl
    have hIndex : index = (encode text).length := hIndex
    rw [hIndex, List.drop_left]
    exact hBreaks index length rfl
  case readable_eq => exact ⟨text, hTake.symm, by rw [readable_encode_append, hReadable]⟩

variable {byte : UInt8} {input piece rest : Bytes}

theorem describes_malformed (hSegment : segment byte input = (.malformed piece, rest))
    (text : Text) : Fault.Describes (encode text ++ byte :: input)
      (.malformed (encode text).length piece.length) := by
  obtain ⟨hBreaks, hPiece⟩ := breaks_of_segment hSegment
  have stops : Stops (byte :: input) := ⟨byte, input, rfl, by simp [hSegment]⟩
  apply stops.describes
  case hIndex => rfl
  case hForm => exact iff_of_false (fun ⟨_, impossible⟩ => nomatch impossible) hBreaks.not_begins
  case hBreaks =>
    intro index length same
    cases same
    exact hBreaks
  case hReadable =>
    rw [Fault.readable, ← List.drop_drop, List.drop_left, ← hPiece, List.drop_left, hPiece,
      readable, segments, hSegment]
    rfl

theorem describes_incomplete (hSegment : segment byte input = (.incomplete piece, rest))
    (text : Text) :
    Fault.Describes (encode text ++ byte :: input) (.incomplete (encode text).length) := by
  obtain ⟨begins, rfl⟩ := begins_of_segment hSegment
  have stops : Stops (byte :: input) := ⟨byte, input, rfl, by simp [hSegment]⟩
  apply stops.describes
  case hIndex => rfl
  case hForm => exact iff_of_true ⟨_, rfl⟩ begins
  case hBreaks => exact fun _ _ impossible => nomatch impossible
  case hReadable =>
    rw [Fault.readable, readable, segments, hSegment, segments]
    rfl

theorem describes_of_fault? {bytes : Bytes} {fault : Fault} (h : fault? bytes = some fault) :
    fault.Describes bytes := by
  rcases exists_text_in_front bytes with ⟨text, rest, rfl, rfl | ⟨byte, input, rfl, stops⟩⟩
  · rw [fault?_encode_append, segments] at h
    cases h
  · rw [fault?_encode_append, segments] at h
    rcases hSegment : segment byte input with ⟨piece, after⟩
    rw [hSegment] at h
    cases piece with
    | scalar character => exact absurd hSegment (stops character after)
    | malformed piece =>
        cases h
        exact describes_malformed hSegment text
    | incomplete piece =>
        cases h
        exact describes_incomplete hSegment text

theorem Breaks.unique {bytes : Bytes} {first second : Nat} (hFirst : Breaks bytes first)
    (hSecond : Breaks bytes second) : first = second := by
  have notLonger : ∀ {shorter longer}, Breaks bytes shorter → Breaks bytes longer →
      longer ≤ shorter := by
    intro shorter longer hShorter hLonger
    by_contra more
    rcases hLonger.begins with single | begins
    · have hPos := hShorter.pos
      omega
    · exact hShorter.ends longer (Nat.not_le.mp more) begins
  exact Nat.le_antisymm (notLonger hSecond hFirst) (notLonger hFirst hSecond)

theorem Fault.Describes.not_isText {bytes : Bytes} {fault : Fault} (h : fault.Describes bytes) :
    ¬IsText bytes := by
  intro isText
  have whole : bytes.take bytes.length = bytes := List.take_of_length_le (Nat.le_refl _)
  have hIndex := h.longest bytes.length (Nat.le_refl _) (whole.symm ▸ isText)
  rcases isText with ⟨all, rfl⟩
  rcases h.readable_eq with ⟨text, hText, hReadable⟩
  rw [List.take_of_length_le hIndex] at hText
  rw [← encode_injective hText, readable_encode] at hReadable
  have nothing := List.self_eq_append_right.mp hReadable
  cases fault <;> cases nothing

theorem Fault.Describes.unique {bytes : Bytes} {first second : Fault}
    (hFirst : first.Describes bytes) (hSecond : second.Describes bytes) : first = second := by
  have index_le : ∀ {fault : Fault}, fault.Describes bytes → fault.index ≤ bytes.length := by
    intro fault h
    by_contra longer
    have isText := h.isText
    rw [List.take_of_length_le (Nat.le_of_not_le longer)] at isText
    exact h.not_isText isText
  have hIndex : first.index = second.index := Nat.le_antisymm
    (hSecond.longest _ (index_le hFirst) hFirst.isText)
    (hFirst.longest _ (index_le hSecond) hSecond.isText)
  have sameForm := hFirst.incomplete_iff.trans hSecond.incomplete_iff.symm
  cases first with
  | malformed index length =>
      cases second with
      | malformed other otherLength =>
          cases hIndex
          rw [(hFirst.breaks _ _ rfl).unique (hSecond.breaks _ _ rfl)]
      | incomplete other => exact nomatch sameForm.mpr ⟨other, rfl⟩
  | incomplete index =>
      cases second with
      | malformed other otherLength => exact nomatch sameForm.mp ⟨index, rfl⟩
      | incomplete other =>
          cases hIndex
          rfl

theorem fault?_eq_some_iff {bytes : Bytes} {fault : Fault} :
    fault? bytes = some fault ↔ fault.Describes bytes := by
  constructor
  · exact describes_of_fault?
  · intro h
    cases hFault : fault? bytes with
    | none => exact absurd (fault?_eq_none_iff.mp hFault) h.not_isText
    | some other => rw [(describes_of_fault? hFault).unique h]

end Timestamping.Utf8
