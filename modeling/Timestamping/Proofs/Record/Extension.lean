import Timestamping.Proofs.Record.Refusal

/-!
Records that are cut short and records with more behind them. Reading stops at the end of a record,
so nothing behind it matters; every beginning of a record is refused for the bytes that it lacks.
Main statement: more bytes can change a refusal only if it says that bytes are missing and they are
missing from the envelope. A payload that breaks off inside its own bytes stays as it is.
-/

namespace Timestamping

/-- The error is not that bytes are missing. -/
def DecodeError.Final (error : DecodeError) : Prop :=
  ∀ needed remaining, error ≠ .truncatedInput needed remaining

namespace Varint

/-- Without its last byte a spelling has no end. -/
theorem Groups.unended_take {text : Bytes} {value : Nat} (h : Groups text value) {count : Nat}
    (hCount : count < text.length) : Unended (text.take count) := by
  induction h generalizing count with
  | @last byte small =>
      have hZero : count = 0 := Nat.lt_one_iff.mp hCount
      rw [hZero, List.take_zero]
      exact nofun
  | @more byte text value large groups ih =>
      cases count with
      | zero => exact nofun
      | succ count =>
          rw [List.take_succ_cons]
          exact List.forall_mem_cons.mpr ⟨large, ih (Nat.lt_of_succ_lt_succ hCount)⟩

theorem Spells.refusal_take {text : Bytes} {number : UInt64} (h : Spells text number) {count : Nat}
    (hCount : count < text.length) :
    Refusal (text.take count) (.truncatedInput (count + 1) count) := by
  have hTake : (text.take count).length = count := List.length_take_of_le (Nat.le_of_lt hCount)
  have refused := Refusal.cut (h.groups.unended_take hCount)
    (Nat.lt_of_lt_of_le (hTake.trans_lt hCount) h.length_le)
  rw [hTake] at refused
  exact refused

theorem Refusal.append {input : Bytes} {error : DecodeError} (h : Refusal input error)
    (final : error.Final) (more : Bytes) : Refusal (input ++ more) error := by
  cases h with
  | cut _ _ => exact absurd rfl (final _ _)
  | overflow unended hLength exceeds =>
      rw [List.append_assoc, List.cons_append]
      exact .overflow unended hLength exceeds
  | tooLong unended hLength small large =>
      rw [List.append_assoc, List.cons_append]
      exact .tooLong unended hLength small large

end Varint

namespace VarBytes

/-- What is said of the first `count` bytes of a byte string of the given length, which is spelled
in `spelled` bytes. -/
def missing (spelled length count : Nat) : DecodeError :=
  if count < spelled then .truncatedInput (count + 1) count
  else .truncatedInput length (count - spelled)

theorem refusal_take {min max : Nat} (outside : Nat → DecodeError) {front content : Bytes}
    {length : UInt64} (hFront : Varint.Spells front length)
    (hLength : content.length = length.toNat) (hMin : min ≤ content.length)
    (hMax : content.length ≤ max) {count : Nat} (hCount : count < front.length + length.toNat) :
    Refusal min max outside ((front ++ content).take count)
      (missing front.length length.toNat count) := by
  rw [missing]
  split
  · rename_i inFront
    rw [List.take_append_of_le_length (Nat.le_of_lt inFront)]
    exact .number (hFront.refusal_take inFront)
  · rename_i behindFront
    have hTake : (content.take (count - front.length)).length = count - front.length :=
      List.length_take_of_le (by omega)
    rw [List.take_append, List.take_of_length_le (Nat.not_lt.mp behindFront)]
    have refused := @Refusal.cut min max outside front (content.take (count - front.length)) length
      hFront (hLength ▸ hMin) (hLength ▸ hMax) (by omega)
    rw [hTake] at refused
    exact refused

theorem Refusal.append {min max : Nat} {outside : Nat → DecodeError} {input : Bytes}
    {error : DecodeError} (h : Refusal min max outside input error) (final : error.Final)
    (more : Bytes) : Refusal min max outside (input ++ more) error := by
  cases h with
  | number unreadable => exact .number (unreadable.append final more)
  | outside hFront out =>
      rw [List.append_assoc]
      exact .outside hFront out
  | cut _ _ _ _ => exact absurd rfl (final _ _)

/-- When as many bytes are there as the length says, only the length can be refused. -/
theorem Refusal.eq_outside {min max : Nat} {outside : Nat → DecodeError} {front rest : Bytes}
    {length : UInt64} {error : DecodeError} (h : Refusal min max outside (front ++ rest) error)
    (hFront : Varint.Spells front length) (enough : length.toNat ≤ rest.length) :
    error = outside length.toNat := by
  generalize hInput : front ++ rest = input at h
  cases h with
  | number unreadable =>
      rw [← hInput] at unreadable
      exact absurd unreadable (Varint.refuses_read.not_refused Varint.reads_read hFront)
  | outside hOther out =>
      rcases Varint.reads_read.append_inj hFront hOther hInput with ⟨_, rfl, _⟩
      rfl
  | cut hOther _ _ short =>
      rcases Varint.reads_read.append_inj hFront hOther hInput with ⟨_, rfl, rfl⟩
      exact absurd enough (Nat.not_le.mpr short)

end VarBytes

namespace Envelope

/-- The tag, the length and as many bytes as the length says are all there. -/
def Present (input : Bytes) : Prop :=
  ∃ (tag : Tag) (front rest : Bytes) (length : UInt64), Varint.Spells front length ∧
    length.toNat ≤ rest.length ∧ tag.bytes ++ (front ++ rest) = input

/-- The same of an envelope, whose tag comes first. -/
def missing (spelled length count : Nat) : DecodeError :=
  if count < Tag.size then .truncatedInput Tag.size count
  else VarBytes.missing spelled length (count - Tag.size)

theorem refusal_take (tag : Tag) {front payload : Bytes} {length : UInt64}
    (hFront : Varint.Spells front length) (hLength : payload.length = length.toNat)
    (hMax : payload.length ≤ maxPayload) {count : Nat}
    (hCount : count < Tag.size + front.length + length.toNat) :
    Refusal ((tag.bytes ++ (front ++ payload)).take count)
      (missing front.length length.toNat count) := by
  have hTag : tag.bytes.length = Tag.size := tag.bytesLength
  rw [missing]
  split
  · rename_i inTag
    have hTake : ((tag.bytes ++ (front ++ payload)).take count).length = count :=
      List.length_take_of_le (by rw [List.length_append]; omega)
    have refused := Refusal.tag (hTake.trans_lt inTag)
    rw [hTake] at refused
    exact refused
  · rename_i behindTag
    rw [List.take_append, hTag, List.take_of_length_le (hTag.trans_le (Nat.not_lt.mp behindTag))]
    exact .payload (VarBytes.refusal_take _ hFront hLength (Nat.zero_le _) hMax (by omega))

theorem Refusal.append {input : Bytes} {error : DecodeError} (h : Refusal input error)
    (final : error.Final) (more : Bytes) : Refusal (input ++ more) error := by
  cases h with
  | tag _ => exact absurd rfl (final _ _)
  | payload refused =>
      rw [List.append_assoc]
      exact .payload (refused.append final more)

theorem Refusal.final {input : Bytes} {error : DecodeError} (h : Refusal input error)
    (present : Present input) : error.Final := by
  rcases present with ⟨tag, front, rest, length, hFront, enough, hInput⟩
  cases h with
  | tag short =>
      have hTag := tag.bytesLength
      rw [← hInput, List.length_append, hTag] at short
      exact absurd short (Nat.not_lt.mpr (Nat.le_add_right _ _))
  | payload refused =>
      rcases Tag.reads_read.append_inj rfl rfl hInput with ⟨_, _, rfl⟩
      rw [refused.eq_outside hFront enough]
      exact nofun

end Envelope

namespace Registry

theorem Refusal.append {registry : Registry} {config : Config} {input : Bytes}
    {error : DecodeError} (h : registry.Refusal config input error)
    (settled : error.Final ∨ Envelope.Present input) (more : Bytes) :
    registry.Refusal config (input ++ more) error := by
  cases h with
  | envelope refused =>
      have final : error.Final := settled.elim id refused.final
      exact .envelope (refused.append final more)
  | content hEnvelope member hTag refused =>
      rw [List.append_assoc]
      exact .content hEnvelope member hTag refused

theorem Record.exists_refusal_take {registry : Registry} {config : Config} {record : Bytes}
    {attestation : Attestation} (h : registry.Record config record attestation) :
    ∃ (front : Bytes) (length : UInt64), Varint.Spells front length ∧
      front <+: record.drop Tag.size ∧ record.length = Tag.size + front.length + length.toNat ∧
      ∀ count < record.length, registry.Refusal config (record.take count)
        (Envelope.missing front.length length.toNat count) := by
  cases h with
  | @intro tag _ payload _ hPayload _ =>
      cases hPayload with
      | @intro front _ length hFront hLength _ hMax =>
          have hTag : tag.bytes.length = Tag.size := tag.bytesLength
          have hRecord : (tag.bytes ++ (front ++ payload)).length =
              Tag.size + front.length + length.toNat := by
            rw [List.length_append, List.length_append, hTag, hLength, Nat.add_assoc]
          refine ⟨front, length, hFront, ?_, hRecord, ?_⟩
          · rw [List.drop_left' hTag]
            exact List.prefix_append front payload
          · intro count hCount
            exact .envelope (Envelope.refusal_take tag hFront hLength hMax (hRecord ▸ hCount))

/-- A record is read as it is whatever follows it, and every beginning of it is refused for the
bytes that are missing. A refusal stays as it is whatever follows, unless it says that bytes are
missing and the envelope is not all there. -/
theorem run_read_append_take (registry : Registry) (config : Config) (input : Bytes) :
    (∀ attestation count,
      (Cursor.ofBytes input).run (registry.read config) = (.ok attestation, ⟨input, count⟩) →
      (∀ other, input.take count <+: other →
        (Cursor.ofBytes other).run (registry.read config) = (.ok attestation, ⟨other, count⟩)) ∧
      ∃ (front : Bytes) (length : UInt64), Varint.Spells front length ∧
        front <+: input.drop Tag.size ∧ count = Tag.size + front.length + length.toNat ∧
        ∀ cut < count, (Cursor.ofBytes (input.take cut)).run (registry.read config) =
          (.error (Envelope.missing front.length length.toNat cut), .ofBytes (input.take cut))) ∧
    ∀ error,
      (Cursor.ofBytes input).run (registry.read config) = (.error error, .ofBytes input) →
      (error.Final ∨ Envelope.Present input) →
      ∀ more, (Cursor.ofBytes (input ++ more)).run (registry.read config) =
        (.error error, .ofBytes (input ++ more)) := by
  have reads := registry.reads_read config
  have refuses := registry.refuses_read config
  constructor
  · intro attestation count hRun
    rcases reads.run_ofBytes_eq_ok_iff.mp hRun with ⟨record, hRecord, ⟨rest, rfl⟩, rfl⟩
    constructor
    · intro other hPrefix
      rw [List.take_left] at hPrefix
      exact reads.run_ofBytes_eq_ok_iff.mpr ⟨record, hRecord, hPrefix, rfl⟩
    · rcases hRecord.exists_refusal_take with ⟨front, length, hFront, hBehind, hLength, hTake⟩
      refine ⟨front, length, hFront, ?_, hLength, ?_⟩
      · rw [List.drop_append_of_le_length (by omega)]
        exact hBehind.trans (List.prefix_append _ rest)
      · intro cut hCut
        rw [List.take_append_of_le_length (Nat.le_of_lt hCut)]
        exact refuses.run_eq_error_iff.mpr ⟨hTake cut hCut, rfl⟩
  · intro error hRun settled more
    have hRefused := (refuses.run_eq_error_iff.mp hRun).1
    exact refuses.run_eq_error_iff.mpr ⟨hRefused.append settled more, rfl⟩

end Registry

end Timestamping
