import Timestamping.Buffer
import Timestamping.Proofs.Record.RoundTrip
import Timestamping.Session

/-!
Reading back what was written. Items of every sort stand one behind the other in a buffer, with
nothing between them; each tells a reader where it ends. Main statement: the matching requests give
every item back, and after each of them the cursor is where the buffer ended when that item was
written.
-/

namespace Timestamping

/-- What an item is to the one who reads it. -/
def Buffer.Item.reply : Buffer.Item → Session.Reply
  | .bytes content => .bytes content
  | .varint number => .number number
  | .varBytes content => .bytes content
  | .record attestation => .attestation attestation

namespace Session

/-- The requests that ask for an item, once it is written. A byte string, whose length has 64 bits,
may be asked for with any bounds around that length, and a record by a reader that lets its
attestation come back. -/
inductive AsksFor (registry : Registry) (config : Config) : Request → Buffer.Item → Prop
  | bytes (content : Bytes) : AsksFor registry config (.bytes content.length) (.bytes content)
  | varint (number : UInt64) : AsksFor registry config .varint (.varint number)
  | varBytes {content : Bytes} {min max : Nat} : content.length < UInt64.size →
      min ≤ content.length → content.length ≤ max →
      AsksFor registry config (.varBytes min max) (.varBytes content)
  | record {attestation : Attestation} {output : Bytes} : attestation.encode = .ok output →
      registry.RoundTrips config attestation →
      AsksFor registry config (.record registry config) (.record attestation)

/-- The session behind the last of some requests. -/
def leave (session : Session) (requests : List Request) : Session :=
  requests.foldl (fun session request => (session.step request).2) session

variable {registry : Registry} {config : Config}

theorem AsksFor.exists_output {request : Request} {item : Buffer.Item}
    (h : AsksFor registry config request item) : ∃ output, item.output = .ok output := by
  cases h with
  | bytes content => exact ⟨content, rfl⟩
  | varint number => exact ⟨Varint.encode number, rfl⟩
  | varBytes _ _ _ => exact ⟨_, rfl⟩
  | record hEncode _ => exact ⟨_, hEncode⟩

/-- A reader that finds a piece of its language answers with what the piece says, and the session
goes on behind it. -/
theorem answer_run {α : Type} {reader : Reader α} {language : Language α}
    (hReads : reader.Reads language) (reply : α → Reply) {session : Session} {text : Bytes}
    {value : α} (inLanguage : language text value) (hPrefix : text <+: session.cursor.rest) :
    session.answer .read reply (session.cursor.run reader) = (.ok (reply value), { session with
      cursor := { session.cursor with position := session.cursor.position + text.length } }) := by
  rw [hReads.run_eq_ok_iff.mpr ⟨text, inLanguage, hPrefix, rfl⟩]
  rfl

/-- An item at the front is given back, whatever stands behind it. -/
theorem AsksFor.step_eq {request : Request} {item : Buffer.Item}
    (h : AsksFor registry config request item) {output : Bytes} (hOutput : item.output = .ok output)
    {session : Session} (hPrefix : output <+: session.cursor.rest) :
    session.step request = (.ok item.reply, { session with
      cursor := { session.cursor with position := session.cursor.position + output.length } }) := by
  cases h with
  | bytes content =>
      cases hOutput
      exact answer_run (Reader.reads_bytes _) .bytes ⟨rfl, rfl⟩ hPrefix
  | varint number =>
      cases hOutput
      exact answer_run Varint.reads_read .number (Varint.spells_encode number) hPrefix
  | varBytes hSize hMin hMax =>
      cases hOutput
      exact answer_run (VarBytes.reads_read _ _) .bytes
        (VarBytes.spells_encode hMin hMax hSize) hPrefix
  | record _ survives =>
      exact answer_run (registry.reads_read config) .attestation
        (Registry.record_of_encode hOutput survives) hPrefix

end Session

namespace Buffer

theorem write_of_output {buffer : Buffer} {item : Item} {output : Bytes}
    (h : item.output = .ok output) : buffer.write item = (.ok (), ⟨buffer.bytes ++ output⟩) := by
  rw [write, h]

theorem prefix_write (buffer : Buffer) (item : Item) :
    buffer.bytes <+: (buffer.write item).2.bytes := by
  rw [write]
  split
  · exact List.prefix_append _ _
  · exact List.prefix_refl _

theorem prefix_writeAll (buffer : Buffer) (items : List Item) :
    buffer.bytes <+: (buffer.writeAll items).bytes := by
  induction items generalizing buffer with
  | nil => exact List.prefix_refl _
  | cons item items ih => exact (buffer.prefix_write item).trans (ih (buffer.write item).2)

end Buffer

namespace Session

variable {registry : Registry} {config : Config}

/-- A session that stands where a buffer ended reads the item that was written there, and then
stands where the buffer ends with it. -/
theorem AsksFor.step_write {request : Request} {item : Buffer.Item}
    (h : AsksFor registry config request item) {buffer : Buffer} {bytes : Bytes}
    (hBytes : (buffer.write item).2.bytes <+: bytes) (saved : List Cursor) :
    step ⟨⟨bytes, buffer.bytes.length⟩, saved⟩ request =
      (.ok item.reply, ⟨⟨bytes, (buffer.write item).2.bytes.length⟩, saved⟩) := by
  rcases h.exists_output with ⟨output, hOutput⟩
  rw [Buffer.write_of_output hOutput] at hBytes ⊢
  have hRest : output <+: (Cursor.mk bytes buffer.bytes.length).rest := by
    rcases hBytes with ⟨tail, rfl⟩
    rw [Cursor.rest, List.append_assoc, List.drop_left]
    exact List.prefix_append output tail
  rw [h.step_eq hOutput hRest, List.length_append]

variable {requests : List Request} {items : List Buffer.Item}

theorem length_run (session : Session) (requests : List Request) :
    (session.run requests).length = requests.length := by
  induction requests generalizing session with
  | nil => rfl
  | cons request requests ih => rw [run, List.length_cons, ih, List.length_cons]

/-- What comes before the items in the buffer, and what follows them in the bytes, is free. -/
theorem getElem?_run (h : List.Forall₂ (AsksFor registry config) requests items) {buffer : Buffer}
    {bytes : Bytes} (hBytes : (buffer.writeAll items).bytes <+: bytes) (saved : List Cursor)
    {index : Nat} (hIndex : index < items.length) :
    (run ⟨⟨bytes, buffer.bytes.length⟩, saved⟩ requests)[index]? =
      some (.ok items[index].reply,
        ⟨⟨bytes, (buffer.writeAll (items.take (index + 1))).bytes.length⟩, saved⟩) := by
  induction h generalizing buffer index with
  | nil => exact absurd hIndex (Nat.not_lt_zero index)
  | @cons request item requests items hItem hItems ih =>
      have hFirst := (Buffer.prefix_writeAll (buffer.write item).2 items).trans hBytes
      rw [run, hItem.step_write hFirst saved]
      cases index with
      | zero => rfl
      | succ index => exact ih hBytes (Nat.lt_of_succ_lt_succ hIndex)

theorem leave_eq (h : List.Forall₂ (AsksFor registry config) requests items) {buffer : Buffer}
    {bytes : Bytes} (hBytes : (buffer.writeAll items).bytes <+: bytes) (saved : List Cursor) :
    leave ⟨⟨bytes, buffer.bytes.length⟩, saved⟩ requests =
      ⟨⟨bytes, (buffer.writeAll items).bytes.length⟩, saved⟩ := by
  induction h generalizing buffer with
  | nil => rfl
  | @cons request item requests items hItem hItems ih =>
      have hFirst := (Buffer.prefix_writeAll (buffer.write item).2 items).trans hBytes
      rw [leave, List.foldl_cons, hItem.step_write hFirst saved]
      exact ih hBytes

/-- A session over the bytes of a buffer gives back each item that was written, in order; behind
every item it stands where the buffer ended then, and behind the last one at the end. -/
theorem run_ofBytes_writeAll (h : List.Forall₂ (AsksFor registry config) requests items) :
    let written := Buffer.writeAll {} items
    let session := Session.ofBytes written.bytes
    (session.run requests).length = items.length ∧
    (∀ index (_ : index < items.length), (session.run requests)[index]? =
      some (.ok items[index].reply, { session with
        cursor := ⟨written.bytes,
          (Buffer.writeAll {} (items.take (index + 1))).bytes.length⟩ })) ∧
    (session.leave requests).cursor.isAtEnd = true := by
  intro written session
  have whole : written.bytes <+: written.bytes := List.prefix_refl _
  refine ⟨?_, ?_, ?_⟩
  · rw [length_run, h.length_eq]
  · intro index hIndex
    exact getElem?_run h whole [] hIndex
  · have hLeave : session.leave requests = ⟨⟨written.bytes, written.bytes.length⟩, []⟩ :=
      leave_eq h whole []
    simp [hLeave, Cursor.isAtEnd, Cursor.remaining]

theorem run_ofBytes_writeAll_mixed :
    let registry : Registry := ⟨[.bitcoin]⟩
    let items : List Buffer.Item := [.bytes [0x80, 0x00], .varint 300, .varBytes [0xFF],
      .record (.bitcoin 1000), .record (.unknown .pending [0x80])]
    let requests : List Request := [.bytes 2, .varint, .varBytes 0 7, .record registry {},
      .record registry {}]
    let written := Buffer.writeAll {} items
    let session := Session.ofBytes written.bytes
    List.Forall₂ (AsksFor registry {}) requests items ∧
    (session.run requests).length = items.length ∧
    (∀ index (_ : index < items.length), (session.run requests)[index]? =
      some (.ok items[index].reply, { session with
        cursor := ⟨written.bytes,
          (Buffer.writeAll {} (items.take (index + 1))).bytes.length⟩ })) ∧
    (session.leave requests).cursor.isAtEnd = true := by
  intro registry items requests written session
  have hBitcoin : (Attestation.bitcoin 1000).encode =
      .ok [0x05, 0x88, 0x96, 0x0D, 0x73, 0xD7, 0x19, 0x01, 0x02, 0xE8, 0x07] := by decide +kernel
  -- This registry does not know the tag, so the attestation is unknown to it.
  have hUnknown : (Attestation.unknown .pending [0x80]).encode =
      .ok [0x83, 0xDF, 0xE3, 0x0D, 0x2E, 0xF9, 0x0C, 0x8E, 0x01, 0x80] := by decide +kernel
  have asks : List.Forall₂ (AsksFor registry {}) requests items := by
    refine .cons (.bytes [0x80, 0x00]) (.cons (.varint 300) (.cons (.varBytes ?_ ?_ ?_)
      (.cons (.record hBitcoin ?_) (.cons (.record hUnknown ?_) .nil))))
    · decide
    · decide
    · decide
    · exact List.mem_cons_self
    · intro kind member
      cases List.mem_singleton.mp member
      decide
  exact ⟨asks, run_ofBytes_writeAll asks⟩

end Session

end Timestamping
