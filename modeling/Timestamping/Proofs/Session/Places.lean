import Timestamping.Proofs.Machine.Agreement
import Timestamping.Proofs.Session.ReadBack

/-!
Places of a session. However requests follow one another, every place that a session is at or can go
back to lies within its bytes, and a place only moves on in them. Main statement: a machine that
makes all the requests never adds, subtracts, shifts or narrows a number out of its range, and never
looks at a byte that is not there; a request for bytes that succeeds is answered with bytes, and they
are the ones that end where it then is.
-/

namespace Timestamping.Session

/-- All places that a session is at or can go back to. -/
def places (session : Session) : List Cursor :=
  session.cursor :: session.saved

def InRange (size : Nat) (session : Session) : Prop :=
  ∀ cursor ∈ session.places, cursor.InRange size

/-- Requests that stay in the bytes where the session is. -/
def Request.IsRead : Request → Prop
  | .save => False
  | .enter _ _ => False
  | .resume => False
  | _ => True

def Request.AsksForBytes : Request → Prop
  | .bytes _ => True
  | .varBytes _ _ => True
  | _ => False

/-- What a request for bytes passes over, with the bytes that it gives for that. -/
def Request.Content : Request → Language Bytes
  | .bytes count => fun text content => content.length = count ∧ text = content
  | .varBytes min max => VarBytes.Spells min max
  | _ => fun _ _ => False

/-- What a request can do to the places, and which bytes it gives. -/
inductive Moves (session : Session) : Request → Except Failure Reply × Session → Prop
  | read {request : Request} {result : Except Failure Reply} {advanced : Cursor} :
      request.IsRead → session.cursor.LeadsTo advanced →
      (∀ content, result = .ok (.bytes content) → content <:+ session.cursor.passed advanced) →
      (request.AsksForBytes → ∀ reply, result = .ok reply → ∃ content, reply = .bytes content ∧
        request.Content (session.cursor.passed advanced) content) →
      Moves session request (result, { session with cursor := advanced })
  | save : Moves session .save
      (.ok .done, { session with saved := session.cursor :: session.saved })
  | enter {min max : Nat} {inner : Bytes} {advanced : Cursor} : session.cursor.LeadsTo advanced →
      inner <:+ session.cursor.passed advanced →
      Moves session (.enter min max)
        (.ok (.bytes inner), ⟨.ofBytes inner, advanced :: session.saved⟩)
  | notEntered {min max : Nat} {failure : Failure} :
      Moves session (.enter min max) (.error failure, session)
  | resume {cursor : Cursor} {saved : List Cursor} : session.saved = cursor :: saved →
      Moves session .resume (.ok .done, ⟨cursor, saved⟩)
  | nothingSaved : session.saved = [] → Moves session .resume (.ok .nothingSaved, session)

theorem language_passed {α : Type} {reader : Reader α} {language : Language α}
    (hReads : reader.Reads language) {cursor advanced : Cursor} {value : α}
    (h : cursor.run reader = (.ok value, advanced)) : language (cursor.passed advanced) value := by
  rcases hReads.run_eq_ok_iff.mp h with ⟨text, inLanguage, hPrefix, rfl⟩
  rw [Cursor.passed_of_prefix hPrefix]
  exact inLanguage

theorem Request.Content.suffix {request : Request} {text content : Bytes}
    (h : request.Content text content) : content <:+ text := by
  cases request with
  | bytes count =>
      obtain ⟨_, rfl⟩ := h
      exact List.suffix_refl _
  | varBytes min max =>
      cases h with
      | intro _ _ _ _ => exact List.suffix_append _ content
  | _ => cases h

theorem exists_of_answer_ok {α ε : Type} {session : Session} {failure : ε → Failure}
    {reply : α → Reply} {outcome : Except ε α × Cursor} {told : Reply}
    (h : (session.answer failure reply outcome).1 = .ok told) :
    ∃ value, outcome = (.ok value, outcome.2) ∧ told = reply value := by
  obtain ⟨result, cursor⟩ := outcome
  cases result with
  | error error => cases h
  | ok value =>
      cases h
      exact ⟨value, rfl, rfl⟩

theorem answer_ne_bytes {α ε : Type} {session : Session} {failure : ε → Failure}
    {reply : α → Reply} (hReply : ∀ value content, reply value ≠ .bytes content)
    (outcome : Except ε α × Cursor) (content : Bytes) :
    (session.answer failure reply outcome).1 ≠ .ok (.bytes content) := by
  intro h
  rcases exists_of_answer_ok h with ⟨value, _, hContent⟩
  exact hReply value content hContent.symm

theorem exists_content_of_step_ok (session : Session) {request : Request}
    (h : request.AsksForBytes) {reply : Reply} (hReply : (session.step request).1 = .ok reply) :
    ∃ content, reply = .bytes content ∧
      request.Content (session.cursor.passed (session.step request).2.cursor) content := by
  cases request with
  | bytes count =>
      rcases exists_of_answer_ok hReply with ⟨content, hRun, told⟩
      exact ⟨content, told, language_passed (Reader.reads_bytes count) hRun⟩
  | varBytes min max =>
      rcases exists_of_answer_ok hReply with ⟨content, hRun, told⟩
      exact ⟨content, told, language_passed (VarBytes.reads_read min max) hRun⟩
  | _ => cases h

/-- Of the requests that stay in the bytes, no other is answered with bytes. -/
theorem asksForBytes_of_step_ok (session : Session) {request : Request} (isRead : request.IsRead)
    {content : Bytes} (h : (session.step request).1 = .ok (.bytes content)) :
    request.AsksForBytes := by
  cases request with
  | bytes count => trivial
  | varBytes min max => trivial
  | save => cases isRead
  | enter min max => cases isRead
  | resume => cases isRead
  | _ => exact absurd h (answer_ne_bytes (by simp) _ content)

/-- A request that stays in the bytes runs one reader there. -/
theorem exists_run_of_isRead (session : Session) {request : Request} (h : request.IsRead) :
    ∃ (α : Type) (reader : Reader α), (session.step request).2 =
      { session with cursor := (session.cursor.run reader).2 } := by
  cases request with
  | bytes count => exact ⟨_, Reader.bytes count, rfl⟩
  | varBytes min max => exact ⟨_, VarBytes.read min max, rfl⟩
  | varint => exact ⟨_, Varint.read, rfl⟩
  | expectEnd => exact ⟨_, Reader.expectEnd, rfl⟩
  | record registry config => exact ⟨_, registry.read config, rfl⟩
  | next codec => exact ⟨_, codec.registry.read codec.config, rfl⟩
  | body kind config => exact ⟨_, kind.fields, rfl⟩
  | save => cases h
  | enter min max => cases h
  | resume => cases h

theorem moves_step (session : Session) (request : Request) :
    session.Moves request (session.step request) := by
  have read : request.IsRead → session.Moves request (session.step request) := by
    intro isRead
    rcases session.exists_run_of_isRead isRead with ⟨_, reader, hAfter⟩
    have hAsks : ∀ content, (session.step request).1 = .ok (.bytes content) →
        request.AsksForBytes := fun _ => session.asksForBytes_of_step_ok isRead
    have hContent := fun asks reply => @exists_content_of_step_ok session request asks reply
    generalize session.step request = outcome at hAfter hAsks hContent ⊢
    obtain ⟨result, after⟩ := outcome
    cases hAfter
    refine .read isRead (Cursor.leadsTo_run reader session.cursor) ?_ hContent
    intro content hResult
    rcases hContent (hAsks content hResult) _ hResult with ⟨_, same, hPassed⟩
    cases same
    exact hPassed.suffix
  cases request with
  | save => exact .save
  | enter min max =>
      rw [step]
      rcases hRun : session.cursor.run (VarBytes.read min max) with ⟨error | inner, advanced⟩
      · exact .notEntered
      · have hLeads := Cursor.leadsTo_run (VarBytes.read min max) session.cursor
        rw [hRun] at hLeads
        have hContent := language_passed (VarBytes.reads_read min max) hRun
        exact .enter hLeads (@Request.Content.suffix (.varBytes min max) _ _ hContent)
  | resume =>
      rw [step]
      cases hSaved : session.saved with
      | nil => exact .nothingSaved hSaved
      | cons cursor saved => exact .resume hSaved
  | _ => exact read trivial

/-! ### Runs -/

variable {size : Nat}

theorem InRange.step {session : Session} (h : session.InRange size) (request : Request) :
    (session.step request).2.InRange size := by
  obtain ⟨hCursor, hSaved⟩ := List.forall_mem_cons.mp h
  generalize hStep : session.step request = outcome
  have hMoves := hStep ▸ session.moves_step request
  cases hMoves with
  | read _ leads _ _ => exact List.forall_mem_cons.mpr ⟨leads.inRange hCursor, hSaved⟩
  | save => exact List.forall_mem_cons.mpr ⟨hCursor, h⟩
  | @enter _ _ inner advanced leads hInner =>
      have hAdvanced := leads.inRange hCursor
      have hLength : inner.length < size := by
        have hPassed := hInner.length_le
        rw [Cursor.passed, List.length_drop, List.length_take] at hPassed
        have hBytes := hAdvanced.length_lt
        omega
      have hStart : (Cursor.ofBytes inner).InRange size := ⟨Nat.zero_le _, hLength⟩
      exact List.forall_mem_cons.mpr ⟨hStart, List.forall_mem_cons.mpr ⟨hAdvanced, hSaved⟩⟩
  | notEntered => exact h
  | resume same =>
      rw [same] at hSaved
      exact hSaved
  | nothingSaved _ => exact h

theorem InRange.leave {session : Session} (h : session.InRange size) (requests : List Request) :
    (session.leave requests).InRange size := by
  induction requests generalizing session with
  | nil => exact h
  | cons request requests ih => exact ih (h.step request)

theorem InRange.run_eq (hSize : Envelope.maxPayload < size) {session : Session}
    (h : session.InRange size) {requests : List Request}
    (hFits : ∀ request ∈ requests, request.Fits size) :
    Machine.run size session requests = some (session.run requests) := by
  induction requests generalizing session with
  | nil => rfl
  | cons request requests ih =>
      obtain ⟨hRequest, hRequests⟩ := List.forall_mem_cons.mp hFits
      have hCursor := (List.forall_mem_cons.mp h).1
      rw [Machine.run, Machine.step_eq hSize hCursor hRequest, Option.bind_eq_bind,
        Option.bind_some, ih (h.step request) hRequests]
      rfl

theorem getElem?_run_append (session : Session) (earlier : List Request) (request : Request)
    (later : List Request) : (session.run (earlier ++ request :: later))[earlier.length]? =
      some ((session.leave earlier).step request) := by
  induction earlier generalizing session with
  | nil => rfl
  | cons first earlier ih => exact ih (session.step first).2

theorem inRange_ofBytes {bytes : Bytes} (h : bytes.length < size) :
    (ofBytes bytes).InRange size :=
  List.forall_mem_cons.mpr ⟨⟨Nat.zero_le _, h⟩, List.forall_mem_nil _⟩

theorem exactly_moves {cursor : Cursor} (h : cursor.InRange size) (count : Nat) :
    ∃ result advanced, Machine.exactly size count cursor = some (result, advanced) ∧
      cursor.LeadsTo advanced ∧
      ∀ content, result = .ok content → content.val <:+ cursor.passed advanced := by
  have hAction := Machine.exactly_performs count h
  have hLeads := Cursor.leadsTo_run (Reader.exactly count) cursor
  have hBytes : cursor.run (Reader.bytes count) = _ :=
    cursor.run_map (Reader.exactly count) Subtype.val
  generalize cursor.run (Reader.exactly count) = outcome at hAction hLeads hBytes
  refine ⟨outcome.1, outcome.2, hAction, hLeads, ?_⟩
  intro content hResult
  rw [hResult] at hBytes
  have hContent := language_passed (Reader.reads_bytes count) hBytes
  exact @Request.Content.suffix (.bytes count) _ _ hContent

/-- Whatever is asked for, and whatever fails on the way, a machine makes every step of it, and at
each place on the way it is within the bytes there. A request moves on in the bytes where it is
made, into the bytes that it has just read, or to a place that was kept. -/
theorem run_stays_in_range (hSize : Envelope.maxPayload < size) {bytes : Bytes}
    (hBytes : bytes.length < size) {requests : List Request}
    (hFits : ∀ request ∈ requests, request.Fits size) :
    let session := ofBytes bytes
    Machine.run size session requests = some (session.run requests) ∧
    (∀ earlier, earlier <+: requests →
      (∀ place ∈ (session.leave earlier).places, place.position ≤ place.bytes.length ∧
        place.position + place.remaining = place.bytes.length) ∧
      ∀ count, ∃ result advanced,
        Machine.exactly size count (session.leave earlier).cursor = some (result, advanced) ∧
        (session.leave earlier).cursor.LeadsTo advanced ∧
        ∀ content, result = .ok content →
          content.val <:+ (session.leave earlier).cursor.passed advanced) ∧
    ∀ earlier request later, earlier ++ request :: later = requests →
      (session.run requests)[earlier.length]? = some ((session.leave earlier).step request) ∧
      (session.leave earlier).Moves request ((session.leave earlier).step request) := by
  intro session
  have hSession := inRange_ofBytes hBytes
  refine ⟨hSession.run_eq hSize hFits, ?_, ?_⟩
  · intro earlier _
    have hEarlier := hSession.leave earlier
    refine ⟨?_, exactly_moves (List.forall_mem_cons.mp hEarlier).1⟩
    intro place member
    have hPosition := (hEarlier place member).position_le
    exact ⟨hPosition, Nat.add_sub_cancel' hPosition⟩
  · rintro earlier request later rfl
    exact ⟨session.getElem?_run_append earlier request later, moves_step _ request⟩

/-- A length beyond the bytes, a byte string that is entered, a record that fails inside it, and the
way back. -/
theorem run_stays_in_range_nested :
    let size := UInt64.size
    let bytes : Bytes := [0x02, 0xFF, 0xFE, 0x81]
    let requests : List Request := [.bytes 18446744073709551615, .save,
      .enter 0 18446744073709551615, .record .standard {}, .body .pending {}, .resume, .varint,
      .resume]
    let session := ofBytes bytes
    Envelope.maxPayload < size ∧ bytes.length < size ∧
    (∀ request ∈ requests, request.Fits size) ∧
    Machine.run size session requests = some (session.run requests) ∧
    (∀ earlier, earlier <+: requests →
      (∀ place ∈ (session.leave earlier).places, place.position ≤ place.bytes.length ∧
        place.position + place.remaining = place.bytes.length) ∧
      ∀ count, ∃ result advanced,
        Machine.exactly size count (session.leave earlier).cursor = some (result, advanced) ∧
        (session.leave earlier).cursor.LeadsTo advanced ∧
        ∀ content, result = .ok content →
          content.val <:+ (session.leave earlier).cursor.passed advanced) ∧
    ∀ earlier request later, earlier ++ request :: later = requests →
      (session.run requests)[earlier.length]? = some ((session.leave earlier).step request) ∧
      (session.leave earlier).Moves request ((session.leave earlier).step request) := by
  intro size bytes requests session
  have hSize : Envelope.maxPayload < size := by decide
  have hBytes : bytes.length < size := by decide
  have hFits : ∀ request ∈ requests, request.Fits size := by
    have hMax : 18446744073709551615 < size := by decide
    simp [requests, Request.Fits, hMax]
  exact ⟨hSize, hBytes, hFits, run_stays_in_range hSize hBytes hFits⟩

end Timestamping.Session
