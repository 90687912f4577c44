import Timestamping.Proofs.Cursor
import Timestamping.Proofs.Machine.Program
import Timestamping.Proofs.Record.Refusal

/-!
The reads of a machine are the reads of this library. At a place within the bytes no step of a
machine is without outcome, and its result and the place where it ends are those of a reader that is
run there. Main statement: what moves a place by hand, and puts it back by hand, answers every
request of a session in the same way, and leaves the same session behind.
-/

namespace Timestamping

/-- The upper bounds of byte strings are words. Nothing else that is asked for has to be one. -/
def Session.Request.Fits (size : Nat) : Session.Request → Prop
  | .varBytes _ max => max < size
  | .enter _ max => max < size
  | _ => True

namespace Machine

variable {α β : Type}

/-! ### Steps one after another -/

theorem bind_of_ok {action : Action α} {next : α → Action β} {place after : Cursor} {value : α}
    (h : action place = some (.ok value, after)) : (action >>= next) place = next value after := by
  change (action place).bind _ = _
  rw [h]
  rfl

theorem bind_of_error {action : Action α} {next : α → Action β} {place after : Cursor}
    {error : DecodeError} (h : action place = some (.error error, after)) :
    (action >>= next) place = some (.error error, after) := by
  change (action place).bind _ = _
  rw [h]
  rfl

theorem tryCatch_of_ok {action : Action α} {handle : DecodeError → Action α}
    {place after : Cursor} {value : α} (h : action place = some (.ok value, after)) :
    tryCatch action handle place = some (.ok value, after) := by
  change (action place).bind _ = _
  rw [h]
  rfl

theorem tryCatch_of_error {action : Action α} {handle : DecodeError → Action α}
    {place after : Cursor} {error : DecodeError} (h : action place = some (.error error, after)) :
    tryCatch action handle place = handle error after := by
  change (action place).bind _ = _
  rw [h]
  rfl

theorem onCopy_of_error {action : Action α} {place after : Cursor} {error : DecodeError}
    (h : action place = some (.error error, after)) :
    onCopy action place = some (.error error, place) := by
  rw [onCopy, h]

theorem get_eq (place : Cursor) : (get : Action Cursor) place = some (.ok place, place) :=
  rfl

/-! ### Reads -/

variable {size : Nat}

/-- Wherever a place can be, the action has an outcome, and that is what the reader makes there. -/
def Performs (size : Nat) (action : Action α) (reader : Reader α) : Prop :=
  ∀ ⦃place : Cursor⦄, place.InRange size → action place = some (place.run reader)

theorem remaining_eq {place : Cursor} (h : place.InRange size) :
    remaining place = some (.ok place.remaining, place) := by
  change subtract place.bytes.length place.position place = _
  rw [subtract, if_pos h.position_le]
  rfl

theorem bytes_performs (count : Nat) : Performs size (bytes size count) (Reader.bytes count) := by
  intro place hPlace
  have hPosition := hPlace.position_le
  have hLength := hPlace.length_lt
  have hRest := place.length_rest
  rw [bytes, bind_of_ok (remaining_eq hPlace)]
  by_cases short : place.remaining < count
  · rw [if_pos short, (Reader.refuses_bytes count).run_eq_error_iff.mpr
      ⟨⟨hRest ▸ short, rfl⟩, rfl⟩, hRest]
    rfl
  · have hCount : (place.rest.take count).length = count := by
      rw [List.length_take, hRest]
      omega
    have hStop : place.position + count ≤ place.bytes.length := by
      change ¬place.bytes.length - place.position < count at short
      omega
    have hSlice : (place.bytes.take (place.position + count)).drop place.position =
        place.rest.take count := by
      rw [List.drop_take, Nat.add_sub_cancel_left]
      rfl
    rw [if_neg short, (Reader.reads_bytes count).run_eq_ok_iff.mpr
      ⟨_, ⟨hCount, rfl⟩, List.take_prefix count place.rest, rfl⟩, hCount, ← hSlice]
    change (add size place.position count >>= _) place = _
    rw [add, if_pos (Nat.lt_of_le_of_lt hStop hLength)]
    change (slice place.position (place.position + count) >>= _) place = _
    have hBetween : place.position ≤ place.position + count ∧
        place.position + count ≤ place.bytes.length := ⟨Nat.le_add_right _ _, hStop⟩
    exact bind_of_ok (if_pos hBetween)

theorem exactly_performs (count : Nat) :
    Performs size (exactly size count) (Reader.exactly count) := by
  intro place hPlace
  have hBytes : place.run (Reader.bytes count) = _ :=
    place.run_map (Reader.exactly count) Subtype.val
  have hAction := bytes_performs count hPlace
  rw [hBytes] at hAction
  rcases hRun : place.run (Reader.exactly count) with ⟨error | content, after⟩
  · rw [hRun] at hAction
    exact bind_of_error hAction
  · rw [hRun] at hAction
    rw [exactly, bind_of_ok hAction, dif_pos content.property]
    rfl

theorem shiftLeft_eq {index : Nat} {byte : UInt8} (hIndex : index < Varint.maxBytes)
    (inRange : ¬(index + 1 = Varint.maxBytes ∧ 1 < Varint.group byte)) :
    shiftLeft (Varint.group byte) (7 * index) =
      pure (Varint.group byte <<< UInt64.ofNat (7 * index)) := by
  change index < 10 at hIndex
  have fits := Varint.group_fits hIndex inRange
  have hPower : (128 : Nat) ^ index = 2 ^ (7 * index) := (Nat.pow_mul 2 7 index).symm
  have hShift : (UInt64.ofNat (7 * index)).toNat % 64 = 7 * index := by
    rw [UInt64.toNat_ofNat']
    omega
  have back : Varint.group byte <<< UInt64.ofNat (7 * index) >>> UInt64.ofNat (7 * index) =
      Varint.group byte := by
    rw [hPower, Nat.mul_comm] at fits
    rw [← UInt64.toNat_inj, UInt64.toNat_shiftRight, UInt64.toNat_shiftLeft, hShift,
      Varint.toNat_group, Nat.shiftLeft_eq, Nat.mod_eq_of_lt fits, Nat.shiftRight_eq_div_pow,
      Nat.mul_div_cancel _ (Nat.two_pow_pos (7 * index))]
  exact if_pos ⟨by omega, back⟩

/-- The groups that were read are those between the place and `index`. -/
theorem groupsFrom_performs (hSize : Varint.maxBytes < size) {place : Cursor}
    (hPlace : place.InRange size) {index : Nat} (hIndex : index < Varint.maxBytes)
    (hStart : place.position + index ≤ place.bytes.length) (value : UInt64) :
    groupsFrom size value (7 * index) (place.position + index) place =
      some (place.run fun _ =>
        Varint.readGroups index value (place.bytes.drop (place.position + index))) := by
  have hLength := hPlace.length_lt
  generalize hRest : place.bytes.drop (place.position + index) = rest
  induction rest generalizing index value with
  | nil =>
      have ended : place.position + index = place.bytes.length :=
        Nat.le_antisymm hStart (List.drop_eq_nil_iff.mp hRest)
      have hRemaining : place.remaining = index := by
        change place.bytes.length - place.position = index
        omega
      have hByte : place.bytes[place.position + index]? = none := by
        rw [List.getElem?_eq_none_iff]
        omega
      rw [groupsFrom, bind_of_ok (get_eq place)]
      simp only [hByte]
      rw [subtract, if_pos (Nat.le_add_right _ _), Nat.add_sub_cancel_left, pure_bind, add,
        if_pos (Nat.lt_of_le_of_lt hIndex hSize), pure_bind, bind_of_ok (remaining_eq hPlace),
        hRemaining]
      rfl
  | cons byte rest ih =>
      rw [groupsFrom, bind_of_ok (get_eq place)]
      have hByte : place.bytes[place.position + index]? = some byte := by
        rw [← List.head?_drop, hRest]
        rfl
      have hNext : place.position + (index + 1) ≤ place.bytes.length :=
        (List.getElem?_eq_some_iff.mp hByte).1
      have hTail : place.bytes.drop (place.position + (index + 1)) = rest := by
        rw [← Nat.add_assoc, ← List.drop_drop, hRest]
        rfl
      simp only [hByte]
      rw [add, Nat.add_assoc, if_pos (Nat.lt_of_le_of_lt hNext hLength), pure_bind,
        Varint.readGroups]
      by_cases tooLarge : index + 1 = Varint.maxBytes ∧ 1 < Varint.group byte
      · have hShift : 7 * index = 63 := by
          rw [Nat.succ.inj tooLarge.1]
        rw [if_pos ⟨hShift, tooLarge.2⟩, if_pos tooLarge]
        rfl
      · have inRange : ¬(7 * index = 63 ∧ 1 < Varint.group byte) := fun h =>
          tooLarge ⟨show index + 1 = 10 by omega, h.2⟩
        rw [if_neg inRange, if_neg tooLarge, shiftLeft_eq hIndex tooLarge, pure_bind]
        by_cases goesOn : Varint.continues byte = true
        · rw [if_pos goesOn, if_pos goesOn]
          by_cases last : index + 1 = Varint.maxBytes
          · have tooFar : 63 < 7 * index + 7 := by
              rw [Nat.succ.inj last]
              decide
            rw [dif_pos tooFar, if_pos last]
            rfl
          · have near : ¬63 < 7 * index + 7 := fun far =>
              last (Nat.le_antisymm hIndex (show 10 ≤ index + 1 by omega))
            rw [dif_neg near, if_neg last]
            exact ih (Nat.lt_of_le_of_ne hIndex last) hNext _ hTail
        · rw [if_neg goesOn, if_neg goesOn]
          have hRemaining : place.remaining - rest.length = index + 1 := by
            rw [← hTail, List.length_drop]
            change place.bytes.length - place.position - _ = _
            omega
          change _ = some (Except.ok _, { place with
            position := place.position + (place.remaining - rest.length) })
          rw [hRemaining]
          rfl

theorem varint_performs (hSize : Varint.maxBytes < size) :
    Performs size (varint size) Varint.read := by
  intro place hPlace
  rw [varint, bind_of_ok (get_eq place)]
  exact groupsFrom_performs hSize hPlace (show 0 < Varint.maxBytes by decide) hPlace.position_le 0

theorem bind_performs {action : Action α} {reader : Reader α} (h : Performs size action reader)
    {place : Cursor} (hPlace : place.InRange size) (next : α → Action β) :
    (∃ error, reader place.rest = .error error ∧
      (action >>= next) place = some (.error error, place)) ∨
    ∃ value rest, reader place.rest = .ok (value, rest) ∧
      (action >>= next) place = next value (place.run reader).2 := by
  have hAction := h hPlace
  cases hRead : reader place.rest with
  | error error =>
      rw [Cursor.run_of_error hRead] at hAction
      exact .inl ⟨error, rfl, bind_of_error hAction⟩
  | ok result =>
      refine .inr ⟨result.1, result.2, rfl, ?_⟩
      rw [Cursor.run_of_ok hRead] at hAction ⊢
      exact bind_of_ok hAction

theorem varBytes_performs (hSize : Varint.maxBytes < size) (min : Nat) {max : Nat}
    (hMax : max < size) : Performs size (varBytes size min max) (VarBytes.read min max) := by
  intro place hPlace
  rw [varBytes, bind_of_ok (get_eq place), VarBytes.read]
  rcases bind_performs (varint_performs hSize) hPlace _ with
    ⟨error, hRead, hAction⟩ | ⟨length, rest, hRead, hAction⟩
  · rw [hAction, Cursor.run_bind_of_error hRead]
  · have hBack := place.position_run Varint.read
    have hBehind := hPlace.run Varint.read
    have hNext : (if min ≤ length.toNat ∧ length.toNat ≤ max then Reader.bytes length.toNat
        else throw (.lengthOutOfBounds length.toNat min max) : Reader Bytes).TakesFront := by
      split
      · exact Reader.bytes_takesFront length.toNat
      · exact Reader.TakesFront.throw _
    rw [hAction, Cursor.run_bind_of_ok Varint.read_takesFront hRead hNext]
    by_cases inside : min ≤ length.toNat ∧ length.toNat ≤ max
    · have hLength : length.toNat < size := Nat.lt_of_le_of_lt inside.2 hMax
      have notOutside : ¬(length.toNat < min ∨ max < length.toNat) := by omega
      have hBytes := bytes_performs length.toNat hBehind
      rw [if_neg notOutside, narrow, if_pos hLength, pure_bind, if_pos inside]
      rcases hRun : (place.run Varint.read).2.run (Reader.bytes length.toNat) with
        ⟨error | content, after⟩
      · rw [hRun] at hBytes
        have hAfter := ((Reader.refuses_bytes _).run_eq_error_iff.mp hRun).2
        rw [tryCatch_of_error hBytes, hAfter]
        exact congrArg (fun place => some (Except.error error, place)) hBack
      · rw [hRun] at hBytes
        exact tryCatch_of_ok hBytes
    · have outside : length.toNat < min ∨ max < length.toNat := by omega
      rw [if_pos outside, if_neg inside]
      exact congrArg (fun place => some (Except.error _, place)) hBack

theorem Performs.describing {action : Action α} {reader : Reader α}
    (h : Performs size action reader) (describe : DecodeError → DecodeError) :
    Performs size (describing describe action) (reader.mapError describe) := by
  intro place hPlace
  have hAction := h hPlace
  cases hRead : reader place.rest with
  | error error =>
      rw [Cursor.run_of_error hRead] at hAction
      rw [Cursor.run_mapError_of_error hRead]
      exact tryCatch_of_error hAction
  | ok result =>
      rw [Cursor.run_of_ok hRead] at hAction
      rw [Cursor.run_of_ok (Reader.mapError_eq_ok_iff.mpr hRead)]
      exact tryCatch_of_ok hAction

/-! ### Payloads and records -/

theorem body_eq (hSize : Envelope.maxPayload < size) (config : Config) (kind : Kind)
    {place : Cursor} (hPlace : place.InRange size) :
    body size config kind place = some (kind.decodeAt config place) := by
  have hGroups : Varint.maxBytes < size := Nat.lt_trans (by decide) hSize
  rw [Kind.decodeAt]
  cases kind with
  | pending =>
      have hUri : Attestation.maxUri < size := Nat.lt_trans (by decide) hSize
      have hAction := (varBytes_performs hGroups 0 hUri).describing .ofUri hPlace
      rw [Kind.fields, Cursor.run_map]
      rcases hRun : place.run ((VarBytes.read 0 Attestation.maxUri).mapError .ofUri) with
        ⟨error | uri, after⟩
      · rw [hRun] at hAction
        exact bind_of_error hAction
      · rw [hRun] at hAction
        rw [body, bind_of_ok hAction]
        change _ = some ((config.check (.pending uri)).map fun _ => Attestation.pending uri, after)
        cases config.check (.pending uri) with
        | error error => rfl
        | ok passed => rfl
  | bitcoin =>
      have hAction := varint_performs hGroups hPlace
      rw [Kind.fields, Cursor.run_map]
      rcases hRun : place.run Varint.read with ⟨error | height, after⟩
      · rw [hRun] at hAction
        exact bind_of_error hAction
      · rw [hRun] at hAction
        exact bind_of_ok hAction

theorem expectEnd_performs : Performs size expectEnd Reader.expectEnd := by
  intro place hPlace
  have hRemaining := remaining_eq hPlace
  have hRest := place.length_rest
  rw [expectEnd, bind_of_ok hRemaining]
  cases hInput : place.rest with
  | nil =>
      have ended : place.remaining = 0 := by rw [← hRest, hInput, List.length_nil]
      have hEnd : Reader.expectEnd place.rest = .ok ((), []) := by rw [hInput]; rfl
      rw [if_pos ended, Cursor.run_of_ok hEnd, ended]
      rfl
  | cons byte tail =>
      have left : ¬place.remaining = 0 := by
        rw [← hRest, hInput]
        exact Nat.succ_ne_zero _
      have hEnd : Reader.expectEnd place.rest = .error (.trailingPayloadBytes place.remaining) := by
        rw [← hRest, hInput]
        rfl
      rw [if_neg left, bind_of_ok hRemaining, Cursor.run_of_error hEnd]
      rfl

theorem decode_eq (kind : Kind) (config : Config) (content : Bytes) :
    kind.decode config content = (do
      let (attestation, rest) ← kind.fields content
      let _ ← config.check attestation
      let _ ← Reader.expectEnd rest
      pure attestation) := by
  rw [Kind.decode, Reader.readAll, Kind.body]
  cases hFields : kind.fields content with
  | error error => simp only [bind, StateT.bind, hFields, Except.bind]
  | ok result =>
      cases hCheck : config.check result.1 with
      | error error => simp only [bind, StateT.bind, hFields, Except.bind, hCheck]; rfl
      | ok passed => simp only [bind, StateT.bind, hFields, Except.bind, hCheck]; rfl

/-- A payload is decoded in whole by decoding it where it begins and being at its end then. -/
theorem decode_eq_decodeAt (kind : Kind) (config : Config) (content : Bytes) :
    kind.decode config content = (do
      let outcome := kind.decodeAt config (.ofBytes content)
      let attestation ← outcome.1
      let _ ← (outcome.2.run Reader.expectEnd).1
      pure attestation) := by
  rw [decode_eq, Kind.decodeAt]
  cases hFields : kind.fields content with
  | error error =>
      have hInput : kind.fields (Cursor.ofBytes content).rest = .error error := hFields
      rw [Cursor.run_of_error hInput]
      rfl
  | ok result =>
      have hInput : kind.fields (Cursor.ofBytes content).rest = .ok result := hFields
      have hRest := Cursor.rest_run kind.reads_fields.takesFront hInput
      have hResult := congrArg Prod.fst (Cursor.run_of_ok hInput)
      generalize (Cursor.ofBytes content).run kind.fields = outcome at hRest hResult
      obtain ⟨fields, after⟩ := outcome
      cases hResult
      change ((config.check result.1).bind fun _ => _) =
        ((config.check result.1).map fun _ => result.1).bind fun _ => _
      cases config.check result.1 with
      | error error => rfl
      | ok passed =>
          change ((Reader.expectEnd result.2).bind fun _ => _) =
            ((after.run Reader.expectEnd).1.bind fun _ => _)
          rw [← hRest]
          cases hEnd : Reader.expectEnd after.rest with
          | error error =>
              rw [Cursor.run_of_error hEnd]
              rfl
          | ok nothing =>
              rw [Cursor.run_of_ok hEnd]
              rfl

/-- A payload that is read in its own bytes is what a kind makes of those bytes. -/
theorem within_payload_eq (hSize : Envelope.maxPayload < size) (config : Config) (kind : Kind)
    {content : Bytes} (hContent : content.length < size) (place : Cursor) :
    within content (payload size config kind) place = some (kind.decode config content, place) := by
  have hInner : (Cursor.ofBytes content).InRange size := ⟨Nat.zero_le _, hContent⟩
  have hBody := body_eq hSize config kind hInner
  have hAfter : (kind.decodeAt config (.ofBytes content)).2.InRange size := hInner.run kind.fields
  have hEnd := expectEnd_performs hAfter
  rw [within, decode_eq_decodeAt, payload]
  generalize kind.decodeAt config (.ofBytes content) = outcome at hBody hEnd ⊢
  rcases outcome with ⟨error | attestation, after⟩
  · rw [bind_of_error hBody]
    rfl
  · rw [bind_of_ok hBody]
    dsimp only at hEnd ⊢
    rcases hRun : after.run Reader.expectEnd with ⟨error | nothing, reached⟩
    · rw [hRun] at hEnd
      rw [bind_of_error hEnd]
      rfl
    · rw [hRun] at hEnd
      rw [bind_of_ok hEnd]
      rfl

/-! ### Records -/

/-- The copy is given up with all that was read on it as soon as one part fails. -/
theorem onCopy_bind {action : Action α} {reader : Reader α} (h : Performs size action reader)
    (hReader : reader.TakesFront) {next : α → Action β} {nextReader : α → Reader β}
    (hNextReader : ∀ value, (nextReader value).TakesFront) {place : Cursor}
    (hPlace : place.InRange size)
    (hNext : ∀ value rest, reader place.rest = .ok (value, rest) →
      onCopy (next value) (place.run reader).2 =
        some ((place.run reader).2.run (nextReader value))) :
    onCopy (action >>= next) place = some (place.run (reader >>= nextReader)) := by
  rcases bind_performs h hPlace next with ⟨error, hRead, hAction⟩ | ⟨value, rest, hRead, hAction⟩
  · rw [onCopy_of_error hAction, Cursor.run_bind_of_error hRead]
  · rw [Cursor.run_bind_of_ok hReader hRead (hNextReader value)]
    have hSecond := hNext value rest hRead
    rw [onCopy] at hSecond ⊢
    rw [hAction]
    generalize next value (place.run reader).2 = outcome at hSecond ⊢
    rcases outcome with _ | ⟨error | result, after⟩
    · cases hSecond
    · rw [← Option.some.inj hSecond]
    · rw [← Option.some.inj hSecond]

theorem read_eq (registry : Registry) (config : Config) :
    registry.read config = (do
      let tag ← Reader.exactly Tag.size
      let content ← (VarBytes.read 0 Envelope.maxPayload).mapError .ofPayload
      registry.interpret config ⟨⟨tag.val, tag.property⟩, content⟩) := by
  simp only [Registry.read, Envelope.read, Tag.read, bind_assoc, bind_map_left]

theorem record_performs (hSize : Envelope.maxPayload < size) (registry : Registry)
    (config : Config) : Performs size (record size registry config) (registry.read config) := by
  intro place hPlace
  have hGroups : Varint.maxBytes < size := Nat.lt_trans (by decide) hSize
  have hContent := (varBytes_performs hGroups 0 hSize).describing .ofPayload
  have readsContent := (VarBytes.reads_read 0 Envelope.maxPayload).mapError .ofPayload
  rw [record, read_eq]
  refine onCopy_bind (exactly_performs Tag.size) (Reader.exactly_takesFront Tag.size) ?_ hPlace ?_
  · intro tag
    exact readsContent.takesFront.bind fun _ => Reader.TakesFront.lift _
  intro tag _ _
  refine onCopy_bind hContent readsContent.takesFront (fun _ => Reader.TakesFront.lift _)
    (hPlace.run _) ?_
  intro content rest hRead
  rcases readsContent.mp hRead with ⟨text, hText, -⟩
  have hLength := Nat.lt_of_le_of_lt hText.length_le hSize
  rw [Cursor.run_lift, Registry.interpret]
  cases hLookup : registry.lookup ⟨tag.val, tag.property⟩ with
  | none => rfl
  | some kind =>
      dsimp only
      rw [onCopy, within_payload_eq hSize config kind hLength]
      cases kind.decode config content with
      | error error => rfl
      | ok attestation => rfl

/-! ### Sessions -/

theorem step_eq (hSize : Envelope.maxPayload < size) {session : Session}
    (hPlace : session.cursor.InRange size) {request : Session.Request}
    (hFits : request.Fits size) : step size session request = some (session.step request) := by
  have hGroups : Varint.maxBytes < size := Nat.lt_trans (by decide) hSize
  cases request with
  | bytes count =>
      rw [step, bytes_performs count hPlace]
      rfl
  | varint =>
      rw [step, varint_performs hGroups hPlace]
      rfl
  | varBytes min max =>
      rw [step, varBytes_performs hGroups min hFits hPlace]
      rfl
  | expectEnd =>
      rw [step, expectEnd_performs hPlace]
      rfl
  | record registry config =>
      rw [step, record_performs hSize registry config hPlace]
      rfl
  | next codec =>
      rw [step, record_performs hSize codec.registry codec.config hPlace, Session.step, Codec.next]
      rcases session.cursor.run (codec.registry.read codec.config) with ⟨error | attestation, after⟩
      · rfl
      · rfl
  | body kind config =>
      rw [step, body_eq hSize config kind hPlace]
      rfl
  | save => rfl
  | enter min max =>
      have hAction := varBytes_performs hGroups min hFits hPlace
      rw [step, Session.step, hAction]
      rcases hRun : session.cursor.run (VarBytes.read min max) with ⟨error | inner, after⟩
      · rw [Cursor.eq_of_run_error hRun]
      · rfl
  | resume =>
      rw [step, Session.step]
      cases session.saved with
      | nil => rfl
      | cons cursor saved => rfl

end Machine

end Timestamping
