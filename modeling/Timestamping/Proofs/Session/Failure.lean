import Timestamping.Proofs.Machine.Agreement
import Timestamping.Proofs.Record.Stream

/-!
Failed requests. A request that fails leaves the session as it was, by whatever way the read came to
fail and however much of it was done by then. One refusal is told of a place that has moved: that of
a URI which was read and is no text, when a payload is read at a place in other bytes.
-/

namespace Timestamping

/-- Only what is said of the fields themselves leaves the place alone; a URI that is no text is
refused behind its last byte. -/
theorem Kind.eq_of_decodeAt_error {kind : Kind} {config : Config} {cursor after : Cursor}
    {error : DecodeError} (h : kind.decodeAt config cursor = (.error error, after)) :
    (after = cursor ∧ ∀ fault, error ≠ .invalidUri fault) ∨
      ∃ text uri fault, error = .invalidUri fault ∧
        VarBytes.Spells 0 Attestation.maxUri text uri ∧ ¬Utf8.IsText uri ∧
        text <+: cursor.rest ∧
        after = { cursor with position := cursor.position + text.length } := by
  rw [decodeAt] at h
  rcases hRun : cursor.run kind.fields with ⟨cause | attestation, advanced⟩
  · rw [hRun] at h
    cases h
    rcases kind.refuses_fields.run_eq_error_iff.mp hRun with ⟨refused, rfl⟩
    refine .inl ⟨rfl, ?_⟩
    rintro fault rfl
    exact refused.ofLayout
  · rw [hRun] at h
    rcases kind.reads_fields.run_eq_ok_iff.mp hRun with ⟨text, hText, hPrefix, rfl⟩
    cases hCheck : config.check attestation with
    | ok passed =>
        have impossible := congrArg Prod.fst h
        change (config.check attestation).map _ = _ at impossible
        rw [hCheck] at impossible
        cases impossible
    | error cause =>
        obtain ⟨hError, hAfter⟩ := Prod.mk.inj h
        change (config.check attestation).map _ = _ at hError
        rw [hCheck] at hError
        cases hError
        rcases Config.check_eq_error_iff.mp hCheck with ⟨uri, fault, rfl, _, hFault, rfl⟩
        have notText := Utf8.not_isText_of_fault? hFault
        cases kind with
        | pending =>
            rcases hText with ⟨_, hUri, same⟩
            cases same
            exact .inr ⟨text, uri, fault, rfl, hUri, notText, hPrefix, hAfter.symm⟩
        | bitcoin =>
            rcases hText with ⟨_, _, impossible⟩
            cases impossible

namespace Session

theorem eq_of_answer_error {α ε : Type} {session after : Session} {failure : ε → Failure}
    {reply : α → Reply} {outcome : Except ε α × Cursor} {told : Failure}
    (h : session.answer failure reply outcome = (.error told, after)) :
    ∃ error cursor, outcome = (.error error, cursor) ∧ told = failure error ∧
      after = { session with cursor := cursor } := by
  obtain ⟨result, cursor⟩ := outcome
  cases result with
  | ok value => cases h
  | error error =>
      cases h
      exact ⟨error, cursor, rfl, rfl, rfl⟩

/-- A reader of payloads says so of a URI that it has read. -/
def Request.RefusesText (request : Request) (failure : Failure) : Prop :=
  ∃ kind config fault, request = .body kind config ∧ failure = .read (.invalidUri fault)

/-- A place behind a URI that is no text, where the text of its length and of itself was read. -/
def BehindUri (session after : Session) : Prop :=
  ∃ text uri, VarBytes.Spells 0 Attestation.maxUri text uri ∧ ¬Utf8.IsText uri ∧
    text <+: session.cursor.rest ∧ after = { session with
      cursor := { session.cursor with position := session.cursor.position + text.length } }

theorem eq_of_answer_run_error {α : Type} {session after : Session} {reader : Reader α}
    {failure : DecodeError → Failure} {reply : α → Reply} {told : Failure}
    (h : session.answer failure reply (session.cursor.run reader) = (.error told, after)) :
    after = session := by
  rcases eq_of_answer_error h with ⟨error, cursor, hRun, _, rfl⟩
  rw [Cursor.eq_of_run_error hRun]

theorem eq_of_step_error_of_not_body {session after : Session} {request : Request}
    {failure : Failure} (notBody : ¬∃ kind config, request = .body kind config)
    (h : session.step request = (.error failure, after)) : after = session := by
  cases request with
  | body kind config => exact absurd ⟨kind, config, rfl⟩ notBody
  | next codec =>
      rcases eq_of_answer_error h with ⟨error, cursor, hNext, _, rfl⟩
      rcases Codec.next_eq_error_iff.mp hNext with ⟨_, _, _, rfl⟩
      rfl
  | enter min max =>
      rw [step] at h
      rcases hRun : session.cursor.run (VarBytes.read min max) with ⟨error | inner, advanced⟩
      · rw [hRun] at h
        cases h
        rfl
      · rw [hRun] at h
        cases h
  | save => cases h
  | resume =>
      rw [step] at h
      cases hSaved : session.saved with
      | nil =>
          rw [hSaved] at h
          cases h
      | cons cursor saved =>
          rw [hSaved] at h
          cases h
  | _ => exact eq_of_answer_run_error h

theorem eq_of_step_error {session after : Session} {request : Request} {failure : Failure}
    (h : session.step request = (.error failure, after)) :
    (¬request.RefusesText failure → after = session) ∧
      (request.RefusesText failure → session.BehindUri after) := by
  by_cases isBody : ∃ kind config, request = .body kind config
  · rcases isBody with ⟨kind, config, rfl⟩
    rcases eq_of_answer_error h with ⟨error, cursor, hRun, rfl, rfl⟩
    rcases Kind.eq_of_decodeAt_error hRun with
      ⟨rfl, aboutElse⟩ | ⟨text, uri, fault, rfl, hText, notText, hPrefix, rfl⟩
    · refine ⟨fun _ => rfl, ?_⟩
      rintro ⟨_, _, fault, _, hFailure⟩
      cases hFailure
      exact absurd rfl (aboutElse fault)
    · refine ⟨?_, fun _ => ⟨text, uri, hText, notText, hPrefix, rfl⟩⟩
      intro aboutElse
      exact absurd ⟨kind, config, fault, rfl, rfl⟩ aboutElse
  · refine ⟨fun _ => eq_of_step_error_of_not_body isBody h, ?_⟩
    rintro ⟨kind, config, _, same, _⟩
    exact absurd ⟨kind, config, same⟩ isBody

/-- A machine that moves its place step by step answers like the session, and when it fails it has
put the place back; the array read too. -/
theorem failed_step_keeps_place {size : Nat} (hSize : Envelope.maxPayload < size)
    {session : Session} (hPlace : session.cursor.InRange size) :
    (∀ request : Request, request.Fits size → ∃ result after,
      Machine.step size session request = some (result, after) ∧
      session.step request = (result, after) ∧
      ∀ failure, result = .error failure →
        (¬request.RefusesText failure → after = session) ∧
        (request.RefusesText failure → session.BehindUri after)) ∧
    ∀ count, ∃ result after,
      Machine.exactly size count session.cursor = some (result, after) ∧
      session.cursor.run (Reader.exactly count) = (result, after) ∧
      ∀ error, result = .error error → after = session.cursor := by
  constructor
  · intro request hFits
    refine ⟨_, _, Machine.step_eq hSize hPlace hFits, rfl, ?_⟩
    intro failure hFailure
    exact eq_of_step_error (Prod.ext hFailure rfl)
  · intro count
    refine ⟨_, _, Machine.exactly_performs count hPlace, rfl, ?_⟩
    intro error hError
    exact Cursor.eq_of_run_error (Prod.ext hError rfl)

/-- Here a URI of two bytes, neither of which is text, stands behind the place. -/
theorem failed_step_keeps_place_bad_uri :
    let size := UInt64.size
    let session : Session := ⟨⟨[0x07, 0x02, 0xFF, 0xFE], 1⟩, []⟩
    Envelope.maxPayload < size ∧ session.cursor.InRange size ∧
    (∀ request : Request, request.Fits size → ∃ result after,
      Machine.step size session request = some (result, after) ∧
      session.step request = (result, after) ∧
      ∀ failure, result = .error failure →
        (¬request.RefusesText failure → after = session) ∧
        (request.RefusesText failure → session.BehindUri after)) ∧
    ∀ count, ∃ result after,
      Machine.exactly size count session.cursor = some (result, after) ∧
      session.cursor.run (Reader.exactly count) = (result, after) ∧
      ∀ error, result = .error error → after = session.cursor := by
  intro size session
  have hSize : Envelope.maxPayload < size := by decide
  have hPlace : session.cursor.InRange size := ⟨by decide, by decide⟩
  exact ⟨hSize, hPlace, failed_step_keeps_place hSize hPlace⟩

example : (step ⟨⟨[0x07, 0x02, 0xFF, 0xFE], 1⟩, []⟩ (.body .pending {})) =
    (.error (.read (.invalidUri (.malformed 0 1))), ⟨⟨[0x07, 0x02, 0xFF, 0xFE], 4⟩, []⟩) := by cbv

end Session

end Timestamping
