import Timestamping.Buffer
import Timestamping.Proofs.Record.Limits

/-!
Writing as a machine does it. Bytes are pushed onto one buffer, which several writers may share;
nothing takes a byte back, and an error leaves what was written before it. Main statement: every
item is written in full or not at all, because all that can fail is asked before the first byte.
-/

namespace Timestamping.Machine.Writer

/-- An error stops the writing, and the buffer stays as it is by then. -/
abbrev Output := ExceptT EncodeError (StateM Buffer) Unit

def push (byte : UInt8) : Output :=
  modify fun buffer => ⟨buffer.bytes ++ [byte]⟩

def extend (content : Bytes) : Output :=
  modify fun buffer => ⟨buffer.bytes ++ content⟩

/-- One byte in each round, as long as more than seven bits are left. -/
def varint (number : UInt64) : Output :=
  if 0x80 ≤ number then do
    push ((number.toUInt8 &&& 0x7F) ||| 0x80)
    varint (number >>> 7)
  else push number.toUInt8
termination_by number.toNat
decreasing_by
  have large : 128 ≤ number.toNat := UInt64.le_iff_toNat_le.mp ‹0x80 ≤ number›
  rw [Varint.toNat_shiftRight]
  omega

def varBytes (content : Bytes) : Output := do
  varint (UInt64.ofNat content.length)
  extend content

/-- What is written to a buffer of its own. -/
def alone (output : Output) : Except EncodeError Bytes :=
  let (result, buffer) := output {}
  result.map fun _ => buffer.bytes

def payload : Attestation → Except EncodeError Bytes
  | .pending uri =>
      if Attestation.maxUri < uri.length then
        .error (.uriTooLarge uri.length Attestation.maxUri)
      else alone (varBytes uri)
  | .bitcoin height => alone (varint height)
  | .unknown _ payload => .ok payload

def record (attestation : Attestation) : Output := do
  let payload ← payload attestation
  if Envelope.maxPayload < payload.length then
    throw (.payloadTooLarge payload.length Envelope.maxPayload)
  else
    extend attestation.tag.bytes
    varBytes payload

def write : Buffer.Item → Output
  | .bytes content => extend content
  | .varint number => varint number
  | .varBytes content => varBytes content
  | .record attestation => record attestation

/-- Writes item after item, whatever fails, and tells the result of each. -/
def run : List Buffer.Item → Buffer → List (Except EncodeError Unit) × Buffer
  | [], buffer => ([], buffer)
  | item :: items, buffer =>
      let (result, buffer) := write item buffer
      let (results, buffer) := run items buffer
      (result :: results, buffer)

/-! ### Output without error -/

/-- Adds the bytes to any buffer, behind those that are there. -/
def Puts (output : Output) (bytes : Bytes) : Prop :=
  ∀ buffer, output buffer = (.ok (), ⟨buffer.bytes ++ bytes⟩)

theorem push_puts (byte : UInt8) : Puts (push byte) [byte] :=
  fun _ => rfl

theorem extend_puts (content : Bytes) : Puts (extend content) content :=
  fun _ => rfl

theorem Puts.andThen {first second : Output} {front back : Bytes} (hFirst : Puts first front)
    (hSecond : Puts second back) : Puts (do first; second) (front ++ back) := by
  intro buffer
  change (ExceptT.bindCont (fun _ => second) (first buffer).1) (first buffer).2 = _
  rw [hFirst buffer, ← List.append_assoc]
  exact hSecond ⟨buffer.bytes ++ front⟩

theorem Puts.alone_eq {output : Output} {bytes : Bytes} (h : Puts output bytes) :
    alone output = .ok bytes := by
  rw [alone, h]
  rfl

theorem varint_puts (number : UInt64) : Puts (varint number) (Varint.encode number) := by
  fun_induction Varint.encode number with
  | case1 number large ih =>
      rw [varint, if_pos large]
      exact (push_puts _).andThen ih
  | case2 number small =>
      rw [varint, if_neg small]
      exact push_puts _

theorem varBytes_puts (content : Bytes) : Puts (varBytes content) (VarBytes.encode content) :=
  (varint_puts _).andThen (extend_puts content)

/-! ### Records -/

theorem payload_eq (attestation : Attestation) : payload attestation = attestation.payload := by
  cases attestation with
  | pending uri =>
      rw [payload, Attestation.payload, (varBytes_puts uri).alone_eq]
      by_cases fits : uri.length ≤ Attestation.maxUri
      · rw [if_pos fits, if_neg (Nat.not_lt.mpr fits)]
      · rw [if_neg fits, if_pos (Nat.not_le.mp fits)]
  | bitcoin height => exact (varint_puts height).alone_eq
  | unknown tag payload => rfl

/-- Both limits are asked before the first byte is written. -/
theorem record_eq (attestation : Attestation) (buffer : Buffer) :
    record attestation buffer = buffer.write (.record attestation) := by
  rw [Buffer.write, Buffer.Item.output, record, payload_eq]
  cases hPayload : attestation.payload with
  | error error =>
      rw [Attestation.encode_of_payload_error hPayload]
      rfl
  | ok payload =>
      rw [Attestation.encode_of_payload_ok hPayload]
      change (ite (Envelope.maxPayload < payload.length) _ _ : Output) buffer = _
      by_cases fits : payload.length ≤ Envelope.maxPayload
      · rw [if_pos fits, if_neg (Nat.not_lt.mpr fits)]
        exact (extend_puts _).andThen (varBytes_puts payload) buffer
      · rw [if_neg fits, if_pos (Nat.not_le.mp fits)]
        rfl

theorem write_eq (item : Buffer.Item) (buffer : Buffer) : write item buffer = buffer.write item := by
  cases item with
  | bytes content => rfl
  | varint number => exact varint_puts number buffer
  | varBytes content => exact varBytes_puts content buffer
  | record attestation => exact record_eq attestation buffer

/-- An attestation that is written to a buffer of its own gives its record, or the same error. -/
theorem alone_record (attestation : Attestation) :
    alone (record attestation) = attestation.encode := by
  rw [alone, record_eq, Buffer.write, Buffer.Item.output]
  cases attestation.encode with
  | error error => rfl
  | ok output => rfl

end Timestamping.Machine.Writer

/-! ### Runs -/

namespace Timestamping.Buffer

/-- What an item adds to a buffer: all of its output, or nothing when it has none. -/
def Item.added (item : Item) : Bytes :=
  match item.output with
  | .ok output => output
  | .error _ => []

/-- What is told of an item that is written. -/
def Item.result (item : Item) : Except EncodeError Unit :=
  item.output.map fun _ => ()

theorem write_eq_added (buffer : Buffer) (item : Item) :
    buffer.write item = (item.result, ⟨buffer.bytes ++ item.added⟩) := by
  rw [write, Item.result, Item.added]
  cases item.output with
  | ok output => rfl
  | error error => exact congrArg (fun bytes => (_, Buffer.mk bytes)) (List.append_nil _).symm

theorem writeAll_eq_added (buffer : Buffer) (items : List Item) :
    buffer.writeAll items = ⟨buffer.bytes ++ items.flatMap Item.added⟩ := by
  induction items generalizing buffer with
  | nil => exact congrArg Buffer.mk (List.append_nil _).symm
  | cons item items ih =>
      rw [writeAll, List.foldl_cons, write_eq_added]
      refine (ih ⟨buffer.bytes ++ item.added⟩).trans ?_
      rw [List.flatMap_cons, List.append_assoc]

theorem run_eq_added (items : List Item) (buffer : Buffer) :
    Machine.Writer.run items buffer =
      (items.map Item.result, ⟨buffer.bytes ++ items.flatMap Item.added⟩) := by
  induction items generalizing buffer with
  | nil => exact congrArg (fun bytes => ([], Buffer.mk bytes)) (List.append_nil _).symm
  | cons item items ih =>
      rw [Machine.Writer.run, Machine.Writer.write_eq, write_eq_added]
      dsimp only
      rw [ih, List.flatMap_cons, List.map_cons, List.append_assoc]

variable {buffer : Buffer} {attestation : Attestation}

theorem fst_write_record_eq_ok_iff :
    (buffer.write (.record attestation)).1 = .ok () ↔ attestation.WithinLimits := by
  rw [← Attestation.exists_encode_eq_ok_iff, write, Item.output]
  cases attestation.encode with
  | error error => simp
  | ok output => simp

theorem fst_write_record_eq_error_iff {error : EncodeError} :
    (buffer.write (.record attestation)).1 = .error error ↔ attestation.Exceeds error := by
  rw [← Attestation.encode_eq_error_iff, write, Item.output]
  cases attestation.encode with
  | error cause => simp
  | ok output => simp

theorem write_record_of_withinLimits (within : attestation.WithinLimits) (buffer : Buffer) :
    ∃ payload, attestation.payload = .ok payload ∧
      attestation.encode = .ok (attestation.tag.bytes ++
        (Varint.encode (UInt64.ofNat payload.length) ++ payload)) ∧
      buffer.write (.record attestation) = (.ok (), ⟨buffer.bytes ++ (attestation.tag.bytes ++
        (Varint.encode (UInt64.ofNat payload.length) ++ payload))⟩) := by
  rcases Attestation.encode_of_withinLimits within with ⟨payload, hPayload, hEncode⟩
  refine ⟨payload, hPayload, hEncode, ?_⟩
  rw [write, Item.output, hEncode]

theorem write_record_of_exceeds {error : EncodeError} (exceeds : attestation.Exceeds error)
    (buffer : Buffer) : buffer.write (.record attestation) = (.error error, buffer) := by
  rw [write, Item.output, exceeds.encode_eq]

/-- Items written one after another stand in the buffer in that order, each behind what was there,
and one that fails is not there at all. An attestation fails exactly when it exceeds the limit of
its kind, so a payload is only ever too long when the attestation is unknown. -/
theorem run_appends_in_order (buffer : Buffer) (items : List Item) :
    Machine.Writer.run items buffer = (items.map Item.result, buffer.writeAll items) ∧
    buffer.writeAll items = ⟨buffer.bytes ++ items.flatMap Item.added⟩ ∧
    ∀ attestation : Attestation,
      Machine.Writer.alone (Machine.Writer.record attestation) = attestation.encode ∧
      ((buffer.write (.record attestation)).1 = .ok () ↔ attestation.WithinLimits) ∧
      (attestation.WithinLimits → ∃ payload, attestation.payload = .ok payload ∧
        attestation.encode = .ok (attestation.tag.bytes ++
          (Varint.encode (UInt64.ofNat payload.length) ++ payload)) ∧
        buffer.write (.record attestation) = (.ok (), ⟨buffer.bytes ++ (attestation.tag.bytes ++
          (Varint.encode (UInt64.ofNat payload.length) ++ payload))⟩)) ∧
      (¬attestation.WithinLimits → ∃ error, attestation.Exceeds error ∧
        buffer.write (.record attestation) = (.error error, buffer)) ∧
      ∀ length max,
        (buffer.write (.record attestation)).1 = .error (.payloadTooLarge length max) →
        ∃ tag payload, attestation = .unknown tag payload := by
  refine ⟨?_, buffer.writeAll_eq_added items, ?_⟩
  · rw [run_eq_added, writeAll_eq_added]
  · intro attestation
    refine ⟨Machine.Writer.alone_record attestation, fst_write_record_eq_ok_iff,
      fun within => write_record_of_withinLimits within buffer, ?_, ?_⟩
    · intro outside
      rcases attestation.withinLimits_or_exceeds.resolve_left outside with ⟨error, exceeds⟩
      exact ⟨error, exceeds, write_record_of_exceeds exceeds buffer⟩
    · intro length max hError
      cases fst_write_record_eq_error_iff.mp hError with
      | unknown _ => exact ⟨_, _, rfl⟩

end Timestamping.Buffer
