import Timestamping.Proofs.Machine.Writer
import Timestamping.Proofs.Record.Stream
import Timestamping.Proofs.Record.RoundTrip
import Timestamping.Sample

/-!
What a decoder makes of records that are put together by hand. They need not be records of any
attestation: payloads of any length, lengths without a payload, bytes behind a height, URIs of any
bytes. Main statement: the outcome for each of them under the standard codec, and that a sample made
for an attestation is its record wherever it has one.
-/

namespace Timestamping

/-! ### Whole envelopes -/

theorem Codec.decode_of_refusal {codec : Codec} {input : Bytes} {error : DecodeError}
    (h : codec.registry.Refusal codec.config input error) :
    codec.decode input = .error (.decode error) := by
  rw [decode, first_eq_error_iff.mpr ⟨error, h, rfl⟩]
  rfl

/-- Bytes that are an envelope and nothing more say what is in the envelope. -/
theorem Codec.decode_of_spells {codec : Codec} {text : Bytes} {envelope : Envelope}
    (h : Envelope.Spells text envelope) :
    codec.decode text = (codec.registry.interpret codec.config envelope).mapError .decode := by
  cases hContent : codec.registry.interpret codec.config envelope with
  | error error =>
      rcases Registry.interpret_eq_error_iff.mp hContent with ⟨kind, member, hTag, refused⟩
      have hRefusal : codec.registry.Refusal codec.config (text ++ []) error :=
        .content h member hTag refused
      rw [List.append_nil] at hRefusal
      exact decode_of_refusal hRefusal
  | ok attestation =>
      rcases h with ⟨back, hPayload, rfl⟩
      exact decode_eq_ok_iff.mpr (.intro hPayload (Registry.interpret_eq_ok_iff.mp hContent))

theorem Registry.interpret_of_unregistered {registry : Registry} {config : Config}
    {envelope : Envelope} (absent : ∀ kind ∈ registry.kinds, kind.tag ≠ envelope.tag) :
    registry.interpret config envelope = .ok (.unknown envelope.tag envelope.payload) :=
  interpret_eq_ok_iff.mpr (.unknown absent)

theorem Registry.interpret_of_mem {registry : Registry} {config : Config} {kind : Kind}
    (member : kind ∈ registry.kinds) (payload : Bytes) :
    registry.interpret config ⟨kind.tag, payload⟩ = kind.decode config payload := by
  rw [interpret, lookup_eq_some_iff.mpr ⟨member, rfl⟩]

theorem Registry.mem_standard (kind : Kind) : kind ∈ standard.kinds := by
  cases kind <;> decide

/-! ### Payloads -/

theorem Kind.decode_bitcoin_append {config : Config} (height : UInt64) (trailing : Bytes) :
    bitcoin.decode config (Varint.encode height ++ trailing) =
      if trailing = [] then .ok (.bitcoin height)
      else .error (.trailingPayloadBytes trailing.length) := by
  have hHeight : Payload config bitcoin (Varint.encode height) (.bitcoin height) :=
    .bitcoin (Varint.spells_encode height)
  split
  · rename_i nothing
    rw [nothing, List.append_nil]
    exact decode_eq_ok_iff.mpr hHeight
  · rename_i more
    exact decode_eq_error_iff.mpr (.leftOver hHeight more)

theorem Kind.decode_pending_encode {config : Config} (strict : config.uriPolicy = .strict)
    {uri : Bytes} (short : uri.length ≤ Attestation.maxUri) :
    pending.decode config (VarBytes.encode uri) =
      match Utf8.fault? uri with
      | none => .ok (.pending uri)
      | some fault => .error (.invalidUri fault) := by
  have hUri := VarBytes.spells_encode (Nat.zero_le _) short
    (Nat.lt_of_le_of_lt short (by decide))
  cases hFault : Utf8.fault? uri with
  | none => exact decode_eq_ok_iff.mpr (.pending hUri fun _ => Utf8.fault?_eq_none_iff.mp hFault)
  | some fault =>
      have notText := Utf8.not_isText_of_fault? hFault
      have hRefusal : BodyRefusal config pending (VarBytes.encode uri ++ []) (.invalidUri fault) :=
        .notText hUri strict notText hFault
      rw [List.append_nil] at hRefusal
      exact decode_eq_error_iff.mpr (.body hRefusal)

/-- A length beyond the bounds is refused for what it says, whatever stands behind it. -/
theorem VarBytes.refusal_encode {min max : Nat} {outside : Nat → DecodeError} {content : Bytes}
    (large : max < content.length) (hSize : content.length < UInt64.size) :
    Refusal min max outside (encode content) (outside content.length) := by
  have hLength : (UInt64.ofNat content.length).toNat = content.length :=
    UInt64.toNat_ofNat_of_lt hSize
  have hRefusal : Refusal min max outside (encode content)
      (outside (UInt64.ofNat content.length).toNat) :=
    .outside (Varint.spells_encode _) (by omega)
  rw [hLength] at hRefusal
  exact hRefusal

theorem Kind.decode_pending_encode_of_lt {config : Config} {uri : Bytes}
    (large : Attestation.maxUri < uri.length) (hSize : uri.length < UInt64.size) :
    pending.decode config (VarBytes.encode uri) =
      .error (.uriTooLarge uri.length Attestation.maxUri) :=
  decode_eq_error_iff.mpr (.body (.fields (VarBytes.refusal_encode large hSize)))

/-! ### Samples -/

namespace Sample

/-- What a sample is put together from. -/
inductive Recipe
  | record (tag : Tag) (payload : Bytes)
  | header (tag : Tag) (length : UInt64)
  | bitcoin (height : UInt64) (trailing : Bytes)
  | pending (uri : Bytes)

namespace Recipe

def bytes : Recipe → Bytes
  | .record tag payload => Sample.record tag payload
  | .header tag length => Sample.header tag length
  | .bitcoin height trailing => Sample.bitcoin height trailing
  | .pending uri => Sample.pending uri

/-- The length of the payload has 64 bits, as the length of every byte string in a memory has. -/
def Fits : Recipe → Prop
  | .record _ payload => payload.length < UInt64.size
  | .header _ _ => True
  | .bitcoin height trailing => (Varint.encode height ++ trailing).length < UInt64.size
  | .pending uri => (VarBytes.encode uri).length < UInt64.size

/-- What the standard codec is to say. A payload limit of 8192 bytes lies around the limits of its
content, so a URI can be too long in two ways. -/
def outcome : Recipe → Except DecodeError Attestation
  | .record tag payload =>
      if payload.length ≤ 8192 then .ok (.unknown tag payload)
      else .error (.payloadTooLarge payload.length 8192)
  | .header tag length =>
      if 8192 < length.toNat then .error (.payloadTooLarge length.toNat 8192)
      else if 1 ≤ length.toNat then .error (.truncatedInput length.toNat 0)
      else if tag = .pending ∨ tag = .bitcoin then .error (.truncatedInput 1 0)
      else .ok (.unknown tag [])
  | .bitcoin height trailing =>
      let length := (Varint.encode height).length + trailing.length
      if trailing = [] then .ok (.bitcoin height)
      else if length ≤ 8192 then .error (.trailingPayloadBytes trailing.length)
      else .error (.payloadTooLarge length 8192)
  | .pending uri =>
      if uri.length ≤ 1000 then
        match Utf8.fault? uri with
        | none => .ok (.pending uri)
        | some fault => .error (.invalidUri fault)
      else if uri.length ≤ 8190 then .error (.uriTooLarge uri.length 1000)
      else
        let length := uri.length + (Varint.encode (.ofNat uri.length)).length
        .error (.payloadTooLarge length 8192)

/-- The recipe for an attestation. -/
def ofAttestation : Attestation → Recipe
  | .pending uri => .pending uri
  | .bitcoin height => .bitcoin height []
  | .unknown tag payload => .record tag payload

end Recipe

end Sample

/-- Samples written as a machine does it, the payload to a buffer of its own. -/
def Machine.Writer.sample : Sample.Recipe → Except EncodeError Bytes
  | .record tag payload => alone (do extend tag.bytes; varBytes payload)
  | .header tag length => alone (do extend tag.bytes; varint length)
  | .bitcoin height trailing => do
      let payload ← alone (do varint height; extend trailing)
      alone (do extend Tag.bitcoin.bytes; varBytes payload)
  | .pending uri => do
      let payload ← alone (varBytes uri)
      alone (do extend Tag.pending.bytes; varBytes payload)

theorem Machine.Writer.sample_eq (recipe : Sample.Recipe) : sample recipe = .ok recipe.bytes := by
  have record : ∀ (tag : Tag) (payload : Bytes),
      alone (do extend tag.bytes; varBytes payload) = .ok (Sample.record tag payload) :=
    fun tag payload => ((extend_puts _).andThen (varBytes_puts payload)).alone_eq
  cases recipe with
  | record tag payload => exact record tag payload
  | header tag length => exact ((extend_puts _).andThen (varint_puts length)).alone_eq
  | bitcoin height trailing =>
      rw [sample, ((varint_puts height).andThen (extend_puts trailing)).alone_eq]
      exact record .bitcoin _
  | pending uri =>
      rw [sample, (varBytes_puts uri).alone_eq]
      exact record .pending _

namespace Sample

variable {codec : Codec} {tag : Tag} {payload : Bytes}

theorem decode_record_of_le (fits : payload.length ≤ Envelope.maxPayload) :
    codec.decode (record tag payload) =
      (codec.registry.interpret codec.config ⟨tag, payload⟩).mapError .decode :=
  Codec.decode_of_spells ⟨_, VarBytes.spells_encode (Nat.zero_le _) fits
    (Nat.lt_of_le_of_lt fits (by decide)), rfl⟩

theorem decode_record_of_lt (large : Envelope.maxPayload < payload.length)
    (hSize : payload.length < UInt64.size) : codec.decode (record tag payload) =
      .error (.decode (.payloadTooLarge payload.length Envelope.maxPayload)) :=
  Codec.decode_of_refusal (.envelope (.payload (VarBytes.refusal_encode large hSize)))

/-- No byte stands behind the length, so nothing but a length of nought is held. -/
theorem decode_header_of_pos {length : UInt64} (declared : 1 ≤ length.toNat)
    (fits : length.toNat ≤ Envelope.maxPayload) :
    codec.decode (header tag length) = .error (.decode (.truncatedInput length.toNat 0)) := by
  have hRefusal : VarBytes.Refusal 0 Envelope.maxPayload (.payloadTooLarge · Envelope.maxPayload)
      (Varint.encode length ++ []) (.truncatedInput length.toNat 0) :=
    .cut (Varint.spells_encode length) (Nat.zero_le _) fits declared
  rw [List.append_nil] at hRefusal
  exact Codec.decode_of_refusal (.envelope (.payload hRefusal))

theorem decode_header_of_lt {length : UInt64} (large : Envelope.maxPayload < length.toNat) :
    codec.decode (header tag length) =
      .error (.decode (.payloadTooLarge length.toNat Envelope.maxPayload)) := by
  have hRefusal : VarBytes.Refusal 0 Envelope.maxPayload (.payloadTooLarge · Envelope.maxPayload)
      (Varint.encode length ++ []) (.payloadTooLarge length.toNat Envelope.maxPayload) :=
    .outside (Varint.spells_encode length) (by omega)
  rw [List.append_nil] at hRefusal
  exact Codec.decode_of_refusal (.envelope (.payload hRefusal))

theorem header_zero : header tag 0 = record tag [] := by
  change tag.bytes ++ Varint.encode 0 = tag.bytes ++ (Varint.encode 0 ++ [])
  rw [List.append_nil]

/-! ### Outcomes under the standard codec -/

theorem interpret_standard_of_ne (notPending : tag ≠ .pending) (notBitcoin : tag ≠ .bitcoin)
    (payload : Bytes) :
    Registry.standard.interpret {} ⟨tag, payload⟩ = .ok (.unknown tag payload) := by
  apply Registry.interpret_of_unregistered
  intro kind _
  cases kind with
  | pending => exact notPending.symm
  | bitcoin => exact notBitcoin.symm

theorem decode_record_outcome (notPending : tag ≠ .pending) (notBitcoin : tag ≠ .bitcoin)
    (hSize : payload.length < UInt64.size) : ({} : Codec).decode (record tag payload) =
      (Recipe.record tag payload).outcome.mapError .decode := by
  rw [Recipe.outcome]
  split
  · rename_i fits
    rw [decode_record_of_le fits, interpret_standard_of_ne notPending notBitcoin]
  · rename_i large
    exact decode_record_of_lt (Nat.not_le.mp large) hSize

theorem decode_header_outcome (tag : Tag) (length : UInt64) :
    ({} : Codec).decode (header tag length) =
      (Recipe.header tag length).outcome.mapError .decode := by
  rw [Recipe.outcome]
  split
  · rename_i large
    exact decode_header_of_lt large
  · rename_i notLarge
    split
    · rename_i declared
      exact decode_header_of_pos declared (Nat.not_lt.mp notLarge)
    · rename_i nothing
      have hLength : length = 0 := UInt64.toNat_inj.mp (Nat.lt_one_iff.mp (Nat.not_le.mp nothing))
      rw [hLength, header_zero, decode_record_of_le (Nat.zero_le _)]
      split
      · rename_i known
        -- Either kind looks for a number in the payload, and there is not one byte.
        rcases known with rfl | rfl
        · rfl
        · rfl
      · rename_i other
        obtain ⟨notPending, notBitcoin⟩ := not_or.mp other
        rw [interpret_standard_of_ne notPending notBitcoin]

theorem decode_bitcoin_outcome {height : UInt64} {trailing : Bytes}
    (hSize : (Varint.encode height ++ trailing).length < UInt64.size) :
    ({} : Codec).decode (bitcoin height trailing) =
      (Recipe.bitcoin height trailing).outcome.mapError .decode := by
  have hLength : (Varint.encode height ++ trailing).length =
      (Varint.encode height).length + trailing.length := List.length_append
  have content : Registry.standard.interpret {} ⟨.bitcoin, Varint.encode height ++ trailing⟩ =
      Kind.bitcoin.decode {} (Varint.encode height ++ trailing) :=
    Registry.interpret_of_mem (Registry.mem_standard .bitcoin) _
  rw [Kind.decode_bitcoin_append] at content
  rw [Recipe.outcome, ← hLength]
  by_cases fits : (Varint.encode height ++ trailing).length ≤ 8192
  · rw [if_pos fits, bitcoin, decode_record_of_le fits, content]
  · have more : trailing ≠ [] := by
      rintro rfl
      rw [List.append_nil] at fits
      exact fits (Nat.le_trans (Varint.spells_encode height).length_le (by decide))
    rw [if_neg fits, if_neg more, bitcoin, decode_record_of_lt (Nat.not_le.mp fits) hSize]
    rfl

theorem payload_pending_of_le {uri : Bytes} (short : uri.length ≤ Attestation.maxUri) :
    (Attestation.pending uri).payload = .ok (VarBytes.encode uri) ∧
      (VarBytes.encode uri).length ≤ Envelope.maxPayload := by
  have within : (Attestation.pending uri).WithinLimits := short
  have hPayload : (Attestation.pending uri).payload = .ok (VarBytes.encode uri) := if_pos short
  exact ⟨hPayload, Attestation.length_payload_le within hPayload⟩

/-- The length of a URI takes two bytes on both sides of the payload limit. -/
theorem length_encode_le_maxPayload_iff {uri : Bytes} (long : 1000 < uri.length)
    (hSize : uri.length < UInt64.size) :
    (VarBytes.encode uri).length ≤ Envelope.maxPayload ↔ uri.length ≤ 8190 := by
  have hNumber : (UInt64.ofNat uri.length).toNat = uri.length := UInt64.toNat_ofNat_of_lt hSize
  have atMostOne := Varint.length_encode_le_iff (.ofNat uri.length) 0
  have atMostTwo := Varint.length_encode_le_iff (.ofNat uri.length) 1
  rw [hNumber] at atMostOne atMostTwo
  change _ ↔ uri.length < 128 at atMostOne
  change _ ↔ uri.length < 16384 at atMostTwo
  rw [VarBytes.encode, List.length_append]
  change _ ≤ 8192 ↔ _
  omega

theorem decode_pending_outcome {uri : Bytes} (hSize : (VarBytes.encode uri).length < UInt64.size) :
    ({} : Codec).decode (pending uri) = (Recipe.pending uri).outcome.mapError .decode := by
  have hLength : (VarBytes.encode uri).length =
      uri.length + (Varint.encode (.ofNat uri.length)).length :=
    List.length_append.trans (Nat.add_comm _ _)
  have hUri : uri.length < UInt64.size := by omega
  have content : Registry.standard.interpret {} ⟨.pending, VarBytes.encode uri⟩ =
      Kind.pending.decode {} (VarBytes.encode uri) :=
    Registry.interpret_of_mem (Registry.mem_standard .pending) _
  rw [Recipe.outcome, ← hLength]
  by_cases short : uri.length ≤ 1000
  · obtain ⟨_, fits⟩ := payload_pending_of_le short
    rw [if_pos short, pending, decode_record_of_le fits, content,
      Kind.decode_pending_encode rfl short]
  · have long : 1000 < uri.length := Nat.not_le.mp short
    have hFits := length_encode_le_maxPayload_iff long hUri
    rw [if_neg short]
    by_cases fits : uri.length ≤ 8190
    · rw [if_pos fits, pending, decode_record_of_le (hFits.mpr fits), content,
        Kind.decode_pending_encode_of_lt long hUri]
      rfl
    · rw [if_neg fits, pending, decode_record_of_lt (Nat.not_le.mp (mt hFits.mp fits)) hSize]
      rfl

theorem bytes_ofAttestation {attestation : Attestation} {output : Bytes}
    (h : attestation.encode = .ok output) : (Recipe.ofAttestation attestation).bytes = output := by
  rcases Attestation.encode_eq_ok_iff.mp h with ⟨payload, hPayload, _, rfl⟩
  cases attestation with
  | pending uri =>
      rw [← (Attestation.payload_pending_eq_ok_iff.mp hPayload).2]
      rfl
  | bitcoin height =>
      cases hPayload
      rw [Recipe.ofAttestation, Recipe.bytes, bitcoin, List.append_nil]
      rfl
  | unknown tag content =>
      cases hPayload
      rfl

/-- A sample is the same bytes whether it is put together or written piece by piece, and it is
decoded as its recipe foretells, unless a payload of any bytes was put behind the tag of a kind. The
record of an attestation is the sample that is made for it. -/
theorem standard_decode_sample :
    (∀ recipe : Recipe, Machine.Writer.sample recipe = .ok recipe.bytes) ∧
    (∀ recipe : Recipe, recipe.Fits →
      (∀ tag payload, recipe = .record tag payload → tag ≠ .pending ∧ tag ≠ .bitcoin) →
      ({} : Codec).decode recipe.bytes = recipe.outcome.mapError .decode) ∧
    (∀ uri : Bytes, uri.length ≤ 1000 →
      (({} : Codec).decode (pending uri) = .ok (.pending uri) ↔ Utf8.IsText uri)) ∧
    ∀ (attestation : Attestation) (output : Bytes), attestation.encode = .ok output →
      (Recipe.ofAttestation attestation).bytes = output := by
  refine ⟨Machine.Writer.sample_eq, ?_, ?_, fun _ _ => bytes_ofAttestation⟩
  · intro recipe fits unowned
    cases recipe with
    | record tag payload =>
        obtain ⟨notPending, notBitcoin⟩ := unowned tag payload rfl
        exact decode_record_outcome notPending notBitcoin fits
    | header tag length => exact decode_header_outcome tag length
    | bitcoin height trailing => exact decode_bitcoin_outcome fits
    | pending uri => exact decode_pending_outcome fits
  · intro uri short
    obtain ⟨hPayload, fits⟩ := payload_pending_of_le short
    have hEncode : (Attestation.pending uri).encode = .ok (pending uri) :=
      Attestation.encode_eq_ok_iff.mpr ⟨_, hPayload, fits, rfl⟩
    rw [Codec.decode_encode_iff {} hEncode]
    constructor
    · intro survives
      exact survives.2.resolve_left nofun
    · intro isText
      exact ⟨Registry.mem_standard .pending, .inr isText⟩

theorem standard_decode_sample_long_uri :
    let uri : Bytes := List.replicate 8191 0x61
    let record : Bytes := [0x05, 0x88, 0x96, 0x0D, 0x73, 0xD7, 0x19, 0x01, 0x02, 0xE8, 0x07]
    (Recipe.pending uri).Fits ∧
    (∀ tag payload, Recipe.pending uri = .record tag payload → tag ≠ .pending ∧ tag ≠ .bitcoin) ∧
    ({} : Codec).decode (pending uri) = .error (.decode (.payloadTooLarge 8193 8192)) ∧
    (uri.take 1000).length ≤ 1000 ∧
    (({} : Codec).decode (pending (uri.take 1000)) = .ok (.pending (uri.take 1000)) ↔
      Utf8.IsText (uri.take 1000)) ∧
    (Attestation.bitcoin 1000).encode = .ok record ∧ (Recipe.bitcoin 1000 []).bytes = record := by
  intro uri record
  have hLength : uri.length = 8191 := List.length_replicate
  have hFront : Varint.encode 8191 = [0xFF, 0x3F] := by decide +kernel
  have hPayload : (VarBytes.encode uri).length = 8193 := by
    change (Varint.encode (.ofNat uri.length) ++ uri).length = 8193
    rw [hLength, List.length_append, hLength]
    exact congrArg (·.length + 8191) hFront
  have fits : (Recipe.pending uri).Fits := by
    change (VarBytes.encode uri).length < UInt64.size
    rw [hPayload]
    decide
  have hOutcome : (Recipe.pending uri).outcome = .error (.payloadTooLarge 8193 8192) := by
    rw [Recipe.outcome, hLength, if_neg (by decide), if_neg (by decide)]
    change Except.error (DecodeError.payloadTooLarge (8191 + (Varint.encode 8191).length) 8192) = _
    rw [hFront]
    rfl
  have hShort : (uri.take 1000).length ≤ 1000 := List.length_take_le _ _
  have hEncode : (Attestation.bitcoin 1000).encode = .ok record := by decide +kernel
  have unowned : ∀ tag payload, Recipe.pending uri = .record tag payload →
      tag ≠ .pending ∧ tag ≠ .bitcoin := by
    intro tag payload impossible
    cases impossible
  have hDecode := standard_decode_sample.2.1 (.pending uri) fits unowned
  rw [hOutcome] at hDecode
  exact ⟨fits, unowned, hDecode, hShort, standard_decode_sample.2.2.1 _ hShort, hEncode,
    standard_decode_sample.2.2.2 _ _ hEncode⟩

end Sample

end Timestamping
