import Timestamping.Proofs.Session.Places

/-!
Bytes that a reader does not see. What stands in front of a place says nothing about what is read
there, and what stands around a byte string says nothing about what is read inside it. Main
statement: every read has the same result, with the same numbers in its errors, wherever its bytes
stand, and ends as far behind its start.
-/

namespace Timestamping

namespace Cursor

/-- The same place, in bytes with others in front. -/
def precededBy (cursor : Cursor) (front : Bytes) : Cursor :=
  ⟨front ++ cursor.bytes, front.length + cursor.position⟩

theorem rest_precededBy (cursor : Cursor) (front : Bytes) :
    (cursor.precededBy front).rest = cursor.rest := by
  change (front ++ cursor.bytes).drop (front.length + cursor.position) = cursor.rest
  rw [← List.drop_drop, List.drop_left]
  rfl

theorem remaining_precededBy (cursor : Cursor) (front : Bytes) :
    (cursor.precededBy front).remaining = cursor.remaining := by
  rw [← length_rest, ← length_rest, rest_precededBy]

theorem precededBy_nil (cursor : Cursor) : cursor.precededBy [] = cursor := by
  unfold precededBy
  rw [List.nil_append, List.length_nil, Nat.zero_add]

/-- Whatever a reader makes of a place, it makes of the same place behind other bytes. -/
theorem run_precededBy {α : Type} (reader : Reader α) (cursor : Cursor) (front : Bytes) :
    (cursor.precededBy front).run reader =
      ((cursor.run reader).1, (cursor.run reader).2.precededBy front) := by
  cases h : reader cursor.rest with
  | error error =>
      rw [run_of_error h]
      rw [← rest_precededBy cursor front] at h
      rw [run_of_error h]
  | ok result =>
      rw [run_of_ok h]
      rw [← rest_precededBy cursor front] at h
      rw [run_of_ok h, remaining_precededBy]
      unfold precededBy
      dsimp only
      rw [Nat.add_assoc]

end Cursor

theorem Kind.decodeAt_precededBy (kind : Kind) (config : Config) (cursor : Cursor)
    (front : Bytes) : kind.decodeAt config (cursor.precededBy front) =
      ((kind.decodeAt config cursor).1, (kind.decodeAt config cursor).2.precededBy front) := by
  unfold decodeAt
  rw [Cursor.run_precededBy]

theorem Codec.next_precededBy (codec : Codec) (cursor : Cursor) (front : Bytes) :
    codec.next (cursor.precededBy front) =
      ((codec.next cursor).1, (codec.next cursor).2.precededBy front) := by
  unfold next
  rw [Cursor.run_precededBy]

namespace Session

/-- The same place with bytes in front of it, and with places to go back to. -/
def inside (session : Session) (front : Bytes) (saved : List Cursor) : Session :=
  ⟨session.cursor.precededBy front, saved⟩

/-! ### One request -/

theorem answer_inside {ε α : Type} (session : Session) (failure : ε → Failure) (reply : α → Reply)
    (outcome : Except ε α × Cursor) (front : Bytes) (saved : List Cursor) :
    (session.inside front saved).answer failure reply (outcome.1, outcome.2.precededBy front) =
      ((session.answer failure reply outcome).1,
        (session.answer failure reply outcome).2.inside front saved) :=
  rfl

theorem answer_run_inside {α : Type} (session : Session) (failure : DecodeError → Failure)
    (reply : α → Reply) (reader : Reader α) (front : Bytes) (saved : List Cursor) :
    (session.inside front saved).answer failure reply
        ((session.inside front saved).cursor.run reader) =
      ((session.answer failure reply (session.cursor.run reader)).1,
        (session.answer failure reply (session.cursor.run reader)).2.inside front saved) := by
  rw [← answer_inside, ← Cursor.run_precededBy]
  rfl

theorem step_inside (session : Session) {request : Request} (isRead : request.IsRead)
    (front : Bytes) (saved : List Cursor) : (session.inside front saved).step request =
      ((session.step request).1, (session.step request).2.inside front saved) := by
  cases request with
  | next codec =>
      refine Eq.trans ?_ (session.answer_inside .decode .attestation
        (codec.next session.cursor) front saved)
      rw [← Codec.next_precededBy]
      rfl
  | body kind config =>
      refine Eq.trans ?_ (session.answer_inside .read .attestation
        (kind.decodeAt config session.cursor) front saved)
      rw [← Kind.decodeAt_precededBy]
      rfl
  | save => cases isRead
  | enter min max => cases isRead
  | resume => cases isRead
  | _ => exact session.answer_run_inside .read _ _ front saved

/-! ### Runs -/

theorem run_inside (session : Session) {requests : List Request}
    (areReads : ∀ request ∈ requests, request.IsRead) (front : Bytes) (saved : List Cursor) :
    (session.inside front saved).run requests =
      (session.run requests).map fun outcome => (outcome.1, outcome.2.inside front saved) := by
  induction requests generalizing session with
  | nil => rfl
  | cons request requests ih =>
      obtain ⟨isRead, areReads⟩ := List.forall_mem_cons.mp areReads
      rw [run, run, List.map_cons, session.step_inside isRead, ih _ areReads]

theorem results_inside (session : Session) {requests : List Request}
    (areReads : ∀ request ∈ requests, request.IsRead) (front : Bytes) (saved : List Cursor) :
    ((session.inside front saved).run requests).map Prod.fst =
      (session.run requests).map Prod.fst := by
  rw [session.run_inside areReads, List.map_map]
  rfl

theorem leave_inside (session : Session) {requests : List Request}
    (areReads : ∀ request ∈ requests, request.IsRead) (front : Bytes) (saved : List Cursor) :
    (session.inside front saved).leave requests = (session.leave requests).inside front saved := by
  induction requests generalizing session with
  | nil => rfl
  | cons request requests ih =>
      obtain ⟨isRead, areReads⟩ := List.forall_mem_cons.mp areReads
      change ((session.inside front saved).step request).2.leave requests = _
      rw [session.step_inside isRead]
      exact ih _ areReads

theorem cursor_leave_inside_nil (session : Session) {requests : List Request}
    (areReads : ∀ request ∈ requests, request.IsRead) (saved : List Cursor) :
    ((session.inside [] saved).leave requests).cursor = (session.leave requests).cursor := by
  rw [session.leave_inside areReads]
  exact Cursor.precededBy_nil _

/-! ### Byte strings that are entered -/

/-- Who enters a byte string is at its beginning, and the parent goes on where it ends. -/
theorem exists_of_step_enter {parent after : Session} {min max : Nat} {inner : Bytes}
    (hPlace : parent.cursor.position ≤ parent.cursor.bytes.length)
    (h : parent.step (.enter min max) = (.ok (.bytes inner), after)) :
    ∃ before, before ++ inner <+: parent.cursor.bytes ∧ after = ⟨.ofBytes inner,
      ⟨parent.cursor.bytes, (before ++ inner).length⟩ :: parent.saved⟩ := by
  have hMoves := parent.moves_step (.enter min max)
  rw [h] at hMoves
  cases hMoves with
  | read isRead _ _ => cases isRead
  | @enter _ _ _ advanced leads hInner =>
      rcases hInner.trans (List.drop_suffix _ _) with ⟨before, hBefore⟩
      obtain ⟨bytes, position⟩ := advanced
      cases leads.bytes_eq
      have hPosition := List.length_take_of_le (leads.within hPlace)
      refine ⟨before, hBefore ▸ List.take_prefix _ _, ?_⟩
      rw [hBefore, hPosition]

variable {size : Nat}

/-- The results of some requests, as the session gives them and a machine too. -/
def Gives (size : Nat) (session : Session) (requests : List Request)
    (results : List (Except Failure Reply)) : Prop :=
  Machine.run size session requests = some (session.run requests) ∧
    (session.run requests).map Prod.fst = results

theorem InRange.gives (hSize : Envelope.maxPayload < size) {session : Session}
    (h : session.InRange size) {requests : List Request}
    (hFits : ∀ request ∈ requests, request.Fits size) :
    session.Gives size requests ((session.run requests).map Prod.fst) :=
  ⟨h.run_eq hSize hFits, rfl⟩

theorem InRange.gives_inside (hSize : Envelope.maxPayload < size) {session : Session}
    {front : Bytes} {saved : List Cursor} (h : (session.inside front saved).InRange size)
    {requests : List Request} (areReads : ∀ request ∈ requests, request.IsRead)
    (hFits : ∀ request ∈ requests, request.Fits size) :
    (session.inside front saved).Gives size requests ((session.run requests).map Prod.fst) := by
  have hGives := h.gives hSize hFits
  rwa [session.results_inside areReads] at hGives

theorem exists_position_of_isRead (rest : Bytes) {request : Request} (isRead : request.IsRead) :
    ∃ result position, (ofBytes rest).step request = (result, ⟨⟨rest, position⟩, []⟩) := by
  rcases (ofBytes rest).exists_run_of_isRead isRead with ⟨_, reader, hAfter⟩
  refine ⟨((ofBytes rest).step request).1, ((Cursor.ofBytes rest).run reader).2.position, ?_⟩
  have hBytes := (Cursor.leadsTo_run reader (Cursor.ofBytes rest)).bytes_eq
  refine Prod.ext rfl (hAfter.trans ?_)
  exact congrArg (fun bytes => Session.mk ⟨bytes, _⟩ []) hBytes

/-- Inside a byte string that is entered, everything is as in a copy of it alone, and as at its own
place in the parent when that is cut off where the byte string ends. -/
theorem InRange.gives_entered (hSize : Envelope.maxPayload < size) {parent after : Session}
    (hParent : parent.InRange size) {min max : Nat} {inner : Bytes}
    (hEnter : parent.step (.enter min max) = (.ok (.bytes inner), after)) :
    ∃ before, before ++ inner <+: parent.cursor.bytes ∧ after = ⟨.ofBytes inner,
        ⟨parent.cursor.bytes, (before ++ inner).length⟩ :: parent.saved⟩ ∧
      ∀ requests : List Request, (∀ request ∈ requests, request.IsRead) →
        (∀ request ∈ requests, request.Fits size) → ∃ results,
        (ofBytes inner).Gives size requests results ∧ after.Gives size requests results ∧
        Gives size ⟨⟨before ++ inner, before.length⟩, []⟩ requests results ∧
        (after.leave requests).cursor = ((ofBytes inner).leave requests).cursor := by
  have hPlace := (List.forall_mem_cons.mp hParent).1
  have hAfter := hParent.step (.enter min max)
  rw [hEnter] at hAfter
  rcases exists_of_step_enter hPlace.position_le hEnter with ⟨before, hPrefix, rfl⟩
  refine ⟨before, hPrefix, rfl, ?_⟩
  intro requests areReads hFits
  have hWhole := Nat.lt_of_le_of_lt hPrefix.length_le hPlace.length_lt
  have hInner : inner.length < size :=
    Nat.lt_of_le_of_lt (List.suffix_append before inner).length_le hWhole
  have hInPlace : ((ofBytes inner).inside before []).InRange size := List.forall_mem_cons.mpr
    ⟨⟨(List.prefix_append before inner).length_le, hWhole⟩, List.forall_mem_nil _⟩
  refine ⟨_, (inRange_ofBytes hInner).gives hSize hFits, ?_,
    hInPlace.gives_inside hSize areReads hFits, ?_⟩
  · exact @InRange.gives_inside size hSize (ofBytes inner) [] _ hAfter requests areReads hFits
  · exact (ofBytes inner).cursor_leave_inside_nil areReads _

/-- A read behind other bytes has the result that it has without them, and ends as far behind its
start; the array read too. What is read inside a byte string depends on that alone. -/
theorem results_depend_on_rest (hSize : Envelope.maxPayload < size) {front rest : Bytes}
    (hLength : (front ++ rest).length < size) :
    let fresh := ofBytes rest
    let moved : Session := ⟨⟨front ++ rest, front.length⟩, []⟩
    (∀ request : Request, request.IsRead → request.Fits size → ∃ result position,
      Machine.step size fresh request = some (fresh.step request) ∧
      fresh.step request = (result, ⟨⟨rest, position⟩, []⟩) ∧
      Machine.step size moved request = some (moved.step request) ∧
      moved.step request = (result, ⟨⟨front ++ rest, front.length + position⟩, []⟩)) ∧
    (∀ count, ∃ result position,
      Machine.exactly size count fresh.cursor = some (result, ⟨rest, position⟩) ∧
      Machine.exactly size count moved.cursor =
        some (result, ⟨front ++ rest, front.length + position⟩)) ∧
    ∀ (parent after : Session) (min max : Nat) (inner : Bytes), parent.InRange size →
      parent.step (.enter min max) = (.ok (.bytes inner), after) →
      ∃ before, before ++ inner <+: parent.cursor.bytes ∧ after = ⟨.ofBytes inner,
          ⟨parent.cursor.bytes, (before ++ inner).length⟩ :: parent.saved⟩ ∧
        ∀ requests : List Request, (∀ request ∈ requests, request.IsRead) →
          (∀ request ∈ requests, request.Fits size) → ∃ results,
          (ofBytes inner).Gives size requests results ∧ after.Gives size requests results ∧
          Gives size ⟨⟨before ++ inner, before.length⟩, []⟩ requests results ∧
          (after.leave requests).cursor = ((ofBytes inner).leave requests).cursor := by
  intro fresh moved
  have hRest : rest.length < size :=
    Nat.lt_of_le_of_lt (List.suffix_append front rest).length_le hLength
  have hFresh : fresh.cursor.InRange size := ⟨Nat.zero_le _, hRest⟩
  have hMoved : moved.cursor.InRange size := ⟨(List.prefix_append front rest).length_le, hLength⟩
  have hInside : moved = fresh.inside front [] := rfl
  refine ⟨?_, ?_, ?_⟩
  · intro request isRead hFits
    rcases exists_position_of_isRead rest isRead with ⟨result, position, hStep⟩
    refine ⟨result, position, Machine.step_eq hSize hFresh hFits, hStep,
      Machine.step_eq hSize hMoved hFits, ?_⟩
    rw [hInside, fresh.step_inside isRead, hStep]
    rfl
  · intro count
    have hBytes := (Cursor.leadsTo_run (Reader.exactly count) fresh.cursor).bytes_eq
    have hRun := Cursor.run_precededBy (Reader.exactly count) fresh.cursor front
    rw [Machine.exactly_performs count hFresh, Machine.exactly_performs count hMoved]
    generalize fresh.cursor.run (Reader.exactly count) = outcome at hBytes hRun ⊢
    obtain ⟨result, bytes, position⟩ := outcome
    cases hBytes
    exact ⟨result, position, rfl, congrArg some hRun⟩
  · intro parent after min max inner hParent hEnter
    exact hParent.gives_entered hSize hEnter

/-- Two bytes stand in front of a byte string that holds a URI which is no text. -/
theorem results_depend_on_rest_bad_uri :
    let size := UInt64.size
    let front : Bytes := [0x80, 0x01]
    let rest : Bytes := [0x02, 0x01, 0xFF, 0x00]
    let fresh := ofBytes rest
    let moved : Session := ⟨⟨front ++ rest, front.length⟩, []⟩
    Envelope.maxPayload < size ∧ (front ++ rest).length < size ∧
    (∀ request : Request, request.IsRead → request.Fits size → ∃ result position,
      Machine.step size fresh request = some (fresh.step request) ∧
      fresh.step request = (result, ⟨⟨rest, position⟩, []⟩) ∧
      Machine.step size moved request = some (moved.step request) ∧
      moved.step request = (result, ⟨⟨front ++ rest, front.length + position⟩, []⟩)) ∧
    (∀ count, ∃ result position,
      Machine.exactly size count fresh.cursor = some (result, ⟨rest, position⟩) ∧
      Machine.exactly size count moved.cursor =
        some (result, ⟨front ++ rest, front.length + position⟩)) ∧
    ∀ (parent after : Session) (min max : Nat) (inner : Bytes), parent.InRange size →
      parent.step (.enter min max) = (.ok (.bytes inner), after) →
      ∃ before, before ++ inner <+: parent.cursor.bytes ∧ after = ⟨.ofBytes inner,
          ⟨parent.cursor.bytes, (before ++ inner).length⟩ :: parent.saved⟩ ∧
        ∀ requests : List Request, (∀ request ∈ requests, request.IsRead) →
          (∀ request ∈ requests, request.Fits size) → ∃ results,
          (ofBytes inner).Gives size requests results ∧ after.Gives size requests results ∧
          Gives size ⟨⟨before ++ inner, before.length⟩, []⟩ requests results ∧
          (after.leave requests).cursor = ((ofBytes inner).leave requests).cursor := by
  intro size front rest fresh moved
  have hSize : Envelope.maxPayload < size := by decide
  have hLength : (front ++ rest).length < size := by decide
  exact ⟨hSize, hLength, results_depend_on_rest hSize hLength⟩

end Session

end Timestamping
