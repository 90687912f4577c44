import Timestamping.Proofs.Record.RoundTrip

/-!
Records in shortest form. Reading accepts padded lengths and heights at both layers; writing what
was read takes the padding out. Main statement: the new record says the same, is never longer, and
is the old one exactly when every integer in the old one was in shortest form. That holds of unknown
attestations too, of which only the length is ever spelled anew.
-/

namespace Timestamping

/-- The same bytes, or fewer of them. -/
def Shortens (short long : Bytes) : Prop :=
  short = long ∨ short.length < long.length

theorem Shortens.length_le {short long : Bytes} (h : Shortens short long) :
    short.length ≤ long.length := by
  rcases h with same | shorter
  · rw [same]
  · exact Nat.le_of_lt shorter

theorem Shortens.append_left {short long : Bytes} (h : Shortens short long) (start : Bytes) :
    Shortens (start ++ short) (start ++ long) := by
  rcases h with same | shorter
  · exact .inl (congrArg (start ++ ·) same)
  · refine .inr ?_
    rw [List.length_append, List.length_append]
    exact Nat.add_lt_add_left shorter _

theorem Shortens.ne_iff {short long : Bytes} (h : Shortens short long) :
    short ≠ long ↔ short.length < long.length := by
  constructor
  · exact h.resolve_left
  · intro shorter same
    rw [same] at shorter
    exact Nat.lt_irrefl _ shorter

namespace Varint

/-- The bytes up to the first that no other continues. -/
def front : Bytes → Bytes
  | [] => []
  | byte :: rest => if continues byte then byte :: front rest else [byte]

theorem Groups.front_append {text : Bytes} {value : Nat} (h : Groups text value) (rest : Bytes) :
    front (text ++ rest) = text := by
  induction h with
  | @last byte small =>
      have ends : ¬continues byte = true := mt (continues_iff byte).mp (Nat.not_le.mpr small)
      exact if_neg ends
  | @more byte text value large groups ih =>
      rw [List.cons_append, front, if_pos ((continues_iff byte).mpr large), ih]

theorem Spells.shortens {text : Bytes} {number : UInt64} (h : Spells text number) :
    Shortens (encode number) text := by
  by_cases short : text.length ≤ (encode number).length
  · exact .inl (h.groups.eq_encode number rfl short).symm
  · exact .inr (Nat.not_le.mp short)

theorem Spells.isShortest_front_iff {text : Bytes} {number : UInt64} (h : Spells text number)
    (rest : Bytes) : IsShortest (front (text ++ rest)) ↔ encode number = text := by
  rw [h.groups.front_append, h.isShortest_iff, eq_comm]

end Varint

namespace VarBytes

private theorem encode_of_length {content : Bytes} {length : UInt64}
    (hLength : content.length = length.toNat) :
    encode content = Varint.encode length ++ content := by
  rw [encode, hLength, UInt64.ofNat_toNat]

theorem Spells.shortens {min max : Nat} {text content : Bytes} (h : Spells min max text content) :
    Shortens (encode content) text := by
  cases h with
  | intro hFront hLength _ _ =>
      rw [encode_of_length hLength]
      rcases hFront.shortens with same | shorter
      · exact .inl (by rw [same])
      · refine .inr ?_
        rw [List.length_append, List.length_append]
        exact Nat.add_lt_add_right shorter _

theorem Spells.isShortest_front_iff {min max : Nat} {text content : Bytes}
    (h : Spells min max text content) :
    Varint.IsShortest (Varint.front text) ↔ encode content = text := by
  cases h with
  | intro hFront hLength _ _ =>
      rw [hFront.isShortest_front_iff, encode_of_length hLength, List.append_left_inj]

theorem Spells.length_encode_lt {min max : Nat} {text content other : Bytes}
    (h : Spells min max text content) (shorter : other.length < content.length) :
    (encode other).length < text.length := by
  cases h with
  | @intro front content length hFront hLength _ _ =>
      have hOther : (UInt64.ofNat other.length).toNat = other.length :=
        UInt64.toNat_ofNat_of_lt (Nat.lt_trans (hLength ▸ shorter) length.toNat_lt)
      have hNumber : (UInt64.ofNat other.length).toNat ≤ length.toNat := by omega
      -- A shorter content needs no longer spelling of its length.
      have hFront := Varint.length_encode_le hFront.groups hNumber
      rw [encode, List.length_append, List.length_append]
      omega

end VarBytes

/-! ### Payloads -/

theorem Kind.Payload.exists_shortened {config : Config} {kind : Kind} {payload : Bytes}
    {attestation : Attestation} (h : kind.Payload config payload attestation) :
    ∃ shortened, attestation.payload = .ok shortened ∧ Shortens shortened payload ∧
      (Varint.IsShortest (Varint.front payload) ↔ shortened = payload) := by
  cases h with
  | @pending _ uri hUri _ =>
      exact ⟨VarBytes.encode uri,
        Attestation.payload_pending_eq_ok_iff.mpr ⟨hUri.length_le, rfl⟩,
        hUri.shortens, hUri.isShortest_front_iff⟩
  | bitcoin hHeight =>
      have hFront := hHeight.isShortest_front_iff []
      rw [List.append_nil] at hFront
      exact ⟨_, rfl, hHeight.shortens, hFront⟩

namespace Registry

theorem Content.tag_eq {registry : Registry} {config : Config} {tag : Tag} {payload : Bytes}
    {attestation : Attestation} (h : registry.Content config tag payload attestation) :
    attestation.tag = tag := by
  cases h with
  | known _ hTag hPayload =>
      cases hPayload with
      | pending _ _ => exact hTag
      | bitcoin _ => exact hTag
  | unknown _ => rfl

theorem Content.exists_shortened {registry : Registry} {config : Config} {tag : Tag}
    {payload : Bytes} {attestation : Attestation}
    (h : registry.Content config tag payload attestation) :
    ∃ shortened, attestation.payload = .ok shortened ∧ Shortens shortened payload ∧
      (((∃ kind ∈ registry.kinds, kind.tag = tag) → Varint.IsShortest (Varint.front payload)) ↔
        shortened = payload) := by
  cases h with
  | known member hTag hPayload =>
      rcases hPayload.exists_shortened with ⟨shortened, hShortened, hShortens, hFront⟩
      refine ⟨shortened, hShortened, hShortens, ?_⟩
      rw [← hFront]
      exact forall_prop_of_true ⟨_, member, hTag⟩
  | unknown absent =>
      refine ⟨payload, rfl, .inl rfl, ?_⟩
      refine iff_of_true ?_ rfl
      intro registered
      rcases registered with ⟨kind, member, hTag⟩
      exact absurd hTag (absent kind member)

/-! ### Records -/

/-- The variable-length integers of a record as they are spelled there: the length of the payload
and, behind the tag of a registered kind, the one that the payload begins with. -/
def varints (registry : Registry) (record : Bytes) : List Bytes :=
  let length := Varint.front (record.drop Tag.size)
  let payload := record.drop (Tag.size + length.length)
  if registry.kinds.any fun kind => kind.tag.bytes = record.take Tag.size then
    [length, Varint.front payload]
  else [length]

end Registry

theorem VarBytes.Spells.forall_mem_varints_iff {min max : Nat} {text payload : Bytes} {tag : Tag}
    (h : VarBytes.Spells min max text payload) {registry : Registry} {property : Bytes → Prop} :
    (∀ integer ∈ registry.varints (tag.bytes ++ text), property integer) ↔
      property (Varint.front text) ∧
        ((∃ kind ∈ registry.kinds, kind.tag = tag) → property (Varint.front payload)) := by
  have hTake : (tag.bytes ++ text).take Tag.size = tag.bytes := List.take_left' tag.bytesLength
  have hDrop : (tag.bytes ++ text).drop Tag.size = text := List.drop_left' tag.bytesLength
  have hPayload : text.drop (Varint.front text).length = payload := by
    cases h with
    | intro hFront _ _ _ => rw [hFront.groups.front_append, List.drop_left]
  have hRegistered : (registry.kinds.any fun kind => kind.tag.bytes = tag.bytes) = true ↔
      ∃ kind ∈ registry.kinds, kind.tag = tag := by
    simp only [List.any_eq_true, decide_eq_true_eq, Tag.bytes_inj]
  simp only [Registry.varints, ← List.drop_drop, hTake, hDrop, hPayload, hRegistered]
  split
  · rename_i registered
    simp only [List.forall_mem_cons, List.not_mem_nil, false_imp_iff, implies_true, and_true,
      forall_prop_of_true registered]
  · rename_i unregistered
    simp only [List.forall_mem_singleton, forall_prop_of_false unregistered, and_true]

namespace Registry

theorem Record.exists_shortened {registry : Registry} {config : Config} {record : Bytes}
    {attestation : Attestation} (h : registry.Record config record attestation) :
    ∃ shortened, attestation.encode = .ok shortened ∧ Shortens shortened record ∧
      ((∀ text ∈ registry.varints record, Varint.IsShortest text) ↔ shortened = record) := by
  cases h with
  | @intro tag _ payload _ hText hContent =>
      rcases hContent.exists_shortened with ⟨shortened, hShortened, hShortens, hInner⟩
      have hMax := hShortens.length_le.trans hText.length_le
      have hEncode := Attestation.encode_eq_ok_iff.mpr ⟨shortened, hShortened, hMax, rfl⟩
      rw [hContent.tag_eq] at hEncode
      -- A payload that lost bytes cannot win them back in front, where its length is spelled. So
      -- the record is as it was only if the payload is, and then the outer length alone decides.
      refine ⟨_, hEncode, ?_, ?_⟩
      · apply Shortens.append_left
        rcases hShortens with same | shorter
        · exact same ▸ hText.shortens
        · exact .inr (hText.length_encode_lt shorter)
      · rw [hText.forall_mem_varints_iff, hInner, List.append_right_inj]
        constructor
        · intro h
          rcases h with ⟨hOuter, same⟩
          exact same ▸ hText.isShortest_front_iff.mp hOuter
        · intro same
          rcases hShortens with rfl | shorter
          · exact ⟨hText.isShortest_front_iff.mpr same, rfl⟩
          · have hLength := hText.length_encode_lt shorter
            rw [same] at hLength
            exact absurd hLength (Nat.lt_irrefl _)

end Registry

/-- Writing what was read from the front gives a record that reads the same and is never longer; it
is the bytes that were read exactly when no integer among them was padded. -/
theorem Codec.first_encode_shortens (codec : Codec) {input : Bytes} {attestation : Attestation}
    {count : Nat} (h : codec.first input = .ok (attestation, count)) :
    ∃ record, attestation.encode = .ok record ∧ record.length ≤ count ∧
      codec.first record = .ok (attestation, record.length) ∧
      (record = input.take count ↔
        ∀ text ∈ codec.registry.varints (input.take count), Varint.IsShortest text) ∧
      (¬(∀ text ∈ codec.registry.varints (input.take count), Varint.IsShortest text) →
        record.length < count) := by
  rcases first_eq_ok_iff.mp h with ⟨original, hOriginal, ⟨rest, rfl⟩, rfl⟩
  rcases hOriginal.exists_shortened with ⟨record, hEncode, hShortens, hShortest⟩
  have hRecord := Registry.record_of_encode hEncode hOriginal.roundTrips
  rw [List.take_left]
  refine ⟨record, hEncode, hShortens.length_le, ?_, hShortest.symm, ?_⟩
  · exact first_eq_ok_iff.mpr ⟨record, hRecord, List.prefix_refl record, rfl⟩
  · intro padded
    exact hShortens.ne_iff.mp fun same => padded (hShortest.mpr same)

theorem Codec.first_encode_shortens_padded :
    let input : Bytes := [0x05, 0x88, 0x96, 0x0D, 0x73, 0xD7, 0x19, 0x01, 0x84, 0x00, 0xE8, 0x87,
      0x80, 0x00, 0xFF]
    ({} : Codec).first input = .ok (.bitcoin 1000, 14) ∧
      ∃ record, (Attestation.bitcoin 1000).encode = .ok record ∧ record.length ≤ 14 ∧
        ({} : Codec).first record = .ok (.bitcoin 1000, record.length) ∧
        (record = input.take 14 ↔
          ∀ text ∈ Registry.standard.varints (input.take 14), Varint.IsShortest text) ∧
        (¬(∀ text ∈ Registry.standard.varints (input.take 14), Varint.IsShortest text) →
          record.length < 14) := by
  intro input
  -- Both integers are padded, and a byte stands behind the record.
  have hFirst : ({} : Codec).first input = .ok (.bitcoin 1000, 14) := by decide +kernel
  exact ⟨hFirst, Codec.first_encode_shortens {} hFirst⟩

/-! ### Unknown attestations -/

theorem Registry.Record.spells_of_unknown {registry : Registry} {config : Config} {record payload : Bytes}
    {tag : Tag} (h : registry.Record config record (.unknown tag payload)) :
    Envelope.Spells record ⟨tag, payload⟩ := by
  cases h with
  | intro hPayload hContent =>
      cases hContent with
      | known _ _ hKnown => cases hKnown
      | unknown _ => exact ⟨_, hPayload, rfl⟩

/-- An attestation is unknown when nobody owns its tag; only the spelling of the length is free. -/
theorem Registry.record_unknown_iff {registry : Registry} {config : Config} {record payload : Bytes}
    {tag : Tag} :
    registry.Record config record (.unknown tag payload) ↔
      (∀ kind ∈ registry.kinds, kind.tag ≠ tag) ∧ payload.length ≤ Envelope.maxPayload ∧
        ∃ front, Varint.Spells front (UInt64.ofNat payload.length) ∧
          tag.bytes ++ (front ++ payload) = record := by
  constructor
  · intro h
    have absent := h.roundTrips
    rcases h.spells_of_unknown with ⟨_, hText, rfl⟩
    cases hText with
    | intro hFront hLength _ hMax =>
        refine ⟨absent, hMax, _, ?_, rfl⟩
        rw [hLength, UInt64.ofNat_toNat]
        exact hFront
  · intro h
    rcases h with ⟨absent, hMax, front, hFront, rfl⟩
    have hSize : payload.length < UInt64.size := Nat.lt_of_le_of_lt hMax (by decide)
    exact .intro (.intro hFront (UInt64.toNat_ofNat_of_lt hSize).symm (Nat.zero_le _) hMax)
      (.unknown absent)

namespace Codec

/-- An unknown attestation keeps its tag and its payload byte for byte. Written again it has the
length in shortest form, so it is the record that was read exactly when that one had it too. -/
theorem encode_of_decode_unknown (codec : Codec) {input payload : Bytes} {tag : Tag}
    (h : codec.decode input = .ok (.unknown tag payload)) :
    ∃ front, Varint.Spells front (UInt64.ofNat payload.length) ∧
      input = tag.bytes ++ (front ++ payload) ∧
      encode (.unknown tag payload) =
        .ok (tag.bytes ++ (Varint.encode (UInt64.ofNat payload.length) ++ payload)) ∧
      (encode (.unknown tag payload) = .ok input ↔ Varint.IsShortest front) := by
  rcases Registry.record_unknown_iff.mp (decode_eq_ok_iff.mp h) with ⟨_, hMax, front, hFront, rfl⟩
  have hEncode : encode (.unknown tag payload) =
      .ok (tag.bytes ++ (Varint.encode (UInt64.ofNat payload.length) ++ payload)) :=
    encode_eq_ok_iff.mpr (Attestation.encode_eq_ok_iff.mpr ⟨payload, rfl, hMax, rfl⟩)
  refine ⟨front, hFront, rfl, hEncode, ?_⟩
  rw [hEncode, hFront.isShortest_iff, Except.ok.injEq, List.append_right_inj,
    List.append_left_inj, eq_comm]

theorem encode_of_decode_unknown_padded :
    let tag : Tag := ⟨[1, 2, 3, 4, 5, 6, 7, 8], rfl⟩
    let input : Bytes := [1, 2, 3, 4, 5, 6, 7, 8, 0x82, 0x80, 0x00, 0xFF, 0x80]
    ({} : Codec).decode input = .ok (.unknown tag [0xFF, 0x80]) ∧
      ∃ front, Varint.Spells front 2 ∧ input = tag.bytes ++ (front ++ [0xFF, 0x80]) ∧
        encode (.unknown tag [0xFF, 0x80]) =
          .ok (tag.bytes ++ (Varint.encode 2 ++ [0xFF, 0x80])) ∧
        (encode (.unknown tag [0xFF, 0x80]) = .ok input ↔ Varint.IsShortest front) := by
  intro tag input
  have hDecode : ({} : Codec).decode input = .ok (.unknown tag [0xFF, 0x80]) := by decide +kernel
  exact ⟨hDecode, encode_of_decode_unknown {} hDecode⟩

theorem encode_of_decode_unknown_verbatim_fails :
    ¬∀ (codec : Codec) (input payload : Bytes) (tag : Tag),
      codec.decode input = .ok (.unknown tag payload) →
        encode (.unknown tag payload) = .ok input := by
  intro promise
  -- A length of nought in two bytes is read, and written in one.
  have hDecode : ({} : Codec).decode [1, 2, 3, 4, 5, 6, 7, 8, 0x80, 0x00] =
      .ok (.unknown ⟨[1, 2, 3, 4, 5, 6, 7, 8], rfl⟩ []) := by decide +kernel
  have hEncode : encode (.unknown ⟨[1, 2, 3, 4, 5, 6, 7, 8], rfl⟩ []) =
      .ok [1, 2, 3, 4, 5, 6, 7, 8, 0x00] := by decide +kernel
  rw [promise _ _ _ _ hDecode] at hEncode
  cases hEncode

end Codec

end Timestamping
