import Timestamping.Codec
import Timestamping.Proofs.Language
import Timestamping.Proofs.Utf8.Validity
import Timestamping.Proofs.Varint.Spelling

/-!
The grammar of records. A record is a tag, the spelled length of a payload and the payload; the
registry says whether the payload has a grammar of its own. Main statement: reading accepts exactly
the records of the grammar, takes nothing of what follows, and never takes less than nine bytes or
more than 8210.
-/

namespace Timestamping

namespace VarBytes

inductive Spells (min max : Nat) : Language Bytes
  | intro {front content : Bytes} {length : UInt64} : Varint.Spells front length →
      content.length = length.toNat → min ≤ content.length → content.length ≤ max →
      Spells min max (front ++ content) content

theorem reads_read (min max : Nat) : (read min max).Reads (Spells min max) := by
  apply (Varint.reads_read.bind fun length => (Reader.reads_bytes length.toNat).guard _).congr
  intro text content
  constructor
  · intro h
    rcases h with ⟨front, length, back, hFront, ⟨⟨hMin, hMax⟩, hLength, rfl⟩, rfl⟩
    exact .intro hFront hLength (hLength ▸ hMin) (hLength ▸ hMax)
  · intro h
    cases h with
    | intro hFront hLength hMin hMax =>
        exact ⟨_, _, _, hFront, ⟨⟨hLength ▸ hMin, hLength ▸ hMax⟩, hLength, rfl⟩, rfl⟩

theorem Spells.length_le {min max : Nat} {text content : Bytes} (h : Spells min max text content) :
    content.length ≤ max := by
  cases h
  assumption

end VarBytes

/-- A tag and the spelled length of a payload that is within the limit, and the payload. -/
def Envelope.Spells : Language Envelope := fun text envelope =>
  ∃ back, VarBytes.Spells 0 maxPayload back envelope.payload ∧ envelope.tag.bytes ++ back = text

theorem Envelope.reads_read : read.Reads Spells := by
  apply (Tag.reads_read.bind fun tag =>
    ((VarBytes.reads_read 0 maxPayload).mapError .ofPayload).map (mk tag)).congr
  intro text envelope
  constructor
  · intro h
    rcases h with ⟨_, tag, back, rfl, ⟨payload, hPayload, rfl⟩, rfl⟩
    exact ⟨back, hPayload, rfl⟩
  · intro h
    rcases h with ⟨back, hPayload, rfl⟩
    exact ⟨_, envelope.tag, back, rfl, ⟨envelope.payload, hPayload, rfl⟩, rfl⟩

/-! ### Payloads -/

theorem Tag.bytes_inj {first second : Tag} : first.bytes = second.bytes ↔ first = second := by
  cases first
  cases second
  rw [Tag.mk.injEq]

theorem Config.check_pending_eq_ok_iff {config : Config} {uri : Bytes} :
    config.check (.pending uri) = .ok () ↔ (config.uriPolicy = .strict → Utf8.IsText uri) := by
  rw [← Utf8.fault?_eq_none_iff, check]
  cases config.uriPolicy <;> cases Utf8.fault? uri <;> simp

namespace Kind

/-- What the fields of a kind look like, before anything more is asked of them. -/
def Fields : Kind → Language Attestation
  | .pending => Language.map .pending (VarBytes.Spells 0 Attestation.maxUri)
  | .bitcoin => Language.map .bitcoin Varint.Spells

theorem reads_fields (kind : Kind) : kind.fields.Reads kind.Fields := by
  cases kind with
  | pending =>
      exact ((VarBytes.reads_read 0 Attestation.maxUri).mapError .ofUri).map Attestation.pending
  | bitcoin => exact Varint.reads_read.map Attestation.bitcoin

/-- The payloads that a kind understands, and what they say. -/
inductive Payload (config : Config) : Kind → Language Attestation
  | pending {text uri : Bytes} : VarBytes.Spells 0 Attestation.maxUri text uri →
      (config.uriPolicy = .strict → Utf8.IsText uri) → Payload config .pending text (.pending uri)
  | bitcoin {text : Bytes} {height : UInt64} : Varint.Spells text height →
      Payload config .bitcoin text (.bitcoin height)

theorem reads_body (kind : Kind) (config : Config) :
    (kind.body config).Reads (Payload config kind) := by
  apply (kind.reads_fields.bind fun attestation =>
    Reader.reads_check attestation (config.check attestation)).congr
  intro text attestation
  constructor
  · intro h
    rcases h with ⟨front, _, _, hFields, ⟨rfl, hCheck, rfl⟩, rfl⟩
    rw [List.append_nil]
    cases kind with
    | pending =>
        rcases hFields with ⟨uri, hUri, rfl⟩
        exact .pending hUri (Config.check_pending_eq_ok_iff.mp hCheck)
    | bitcoin =>
        rcases hFields with ⟨height, hHeight, rfl⟩
        exact .bitcoin hHeight
  · intro h
    cases h with
    | pending hUri hPolicy =>
        exact ⟨_, _, [], ⟨_, hUri, rfl⟩, ⟨rfl, Config.check_pending_eq_ok_iff.mpr hPolicy, rfl⟩,
          List.append_nil _⟩
    | bitcoin hHeight =>
        exact ⟨_, _, [], ⟨_, hHeight, rfl⟩, ⟨rfl, rfl, rfl⟩, List.append_nil _⟩

theorem decode_eq_ok_iff {kind : Kind} {config : Config} {payload : Bytes}
    {attestation : Attestation} :
    kind.decode config payload = .ok attestation ↔ Payload config kind payload attestation :=
  (kind.reads_body config).readAll

theorem tag_injective : Function.Injective tag := by
  intro first second h
  cases first <;> cases second <;> first | rfl | cases h

theorem owns_iff {kind : Kind} {tag : Tag} : kind.owns tag = true ↔ kind.tag = tag :=
  decide_eq_true_iff

end Kind

/-! ### Registries -/

namespace Registry

private theorem tag_of_lookup {registry : Registry} {tag : Tag} {kind : Kind}
    (h : registry.lookup tag = some kind) : kind.tag = tag := by
  rw [lookup] at h
  have hOwns := List.find?_some h
  exact Kind.owns_iff.mp hOwns

theorem lookup_eq_some_iff {registry : Registry} {tag : Tag} {kind : Kind} :
    registry.lookup tag = some kind ↔ kind ∈ registry.kinds ∧ kind.tag = tag := by
  constructor
  · intro h
    exact ⟨List.mem_of_find?_eq_some h, tag_of_lookup h⟩
  · intro h
    rcases h with ⟨member, rfl⟩
    cases hLookup : registry.lookup kind.tag with
    | none =>
        have absent := List.find?_eq_none.mp hLookup kind member
        exact absurd (Kind.owns_iff.mpr rfl) absent
    | some other =>
        rw [Kind.tag_injective (tag_of_lookup hLookup)]

theorem lookup_eq_none_iff {registry : Registry} {tag : Tag} :
    registry.lookup tag = none ↔ ∀ kind ∈ registry.kinds, kind.tag ≠ tag := by
  rw [lookup, List.find?_eq_none]
  simp only [Kind.owns_iff, ne_eq]

/-- What a payload says behind a tag. The tag of a registered kind asks for a payload of that kind;
behind any other tag every payload stands for itself. -/
inductive Content (registry : Registry) (config : Config) (tag : Tag) : Language Attestation
  | known {kind : Kind} {payload : Bytes} {attestation : Attestation} : kind ∈ registry.kinds →
      kind.tag = tag → kind.Payload config payload attestation →
      Content registry config tag payload attestation
  | unknown {payload : Bytes} : (∀ kind ∈ registry.kinds, kind.tag ≠ tag) →
      Content registry config tag payload (.unknown tag payload)

theorem interpret_eq_ok_iff {registry : Registry} {config : Config} {envelope : Envelope}
    {attestation : Attestation} :
    registry.interpret config envelope = .ok attestation ↔
      registry.Content config envelope.tag envelope.payload attestation := by
  rw [interpret]
  constructor
  · intro h
    split at h
    · rename_i kind hLookup
      rcases lookup_eq_some_iff.mp hLookup with ⟨member, hTag⟩
      exact .known member hTag (Kind.decode_eq_ok_iff.mp h)
    · rename_i hLookup
      cases h
      exact .unknown (lookup_eq_none_iff.mp hLookup)
  · intro h
    generalize hTag : envelope.tag = tag, hPayload : envelope.payload = payload at h
    cases h with
    | known member same hContent =>
        simp only [lookup_eq_some_iff.mpr ⟨member, same⟩]
        exact Kind.decode_eq_ok_iff.mpr hContent
    | unknown absent =>
        simp only [lookup_eq_none_iff.mpr absent]

/-- A tag and the spelled length of a payload that is within the limit. -/
inductive Record (registry : Registry) (config : Config) : Language Attestation
  | intro {tag : Tag} {text payload : Bytes} {attestation : Attestation} :
      VarBytes.Spells 0 Envelope.maxPayload text payload →
      registry.Content config tag payload attestation →
      Record registry config (tag.bytes ++ text) attestation

theorem reads_read (registry : Registry) (config : Config) :
    (registry.read config).Reads (registry.Record config) := by
  apply (Envelope.reads_read.bind fun envelope =>
    Reader.reads_lift (registry.interpret config envelope)).congr
  intro text attestation
  constructor
  · intro h
    rcases h with ⟨_, envelope, _, ⟨back, hPayload, rfl⟩, ⟨rfl, hContent⟩, rfl⟩
    rw [List.append_nil]
    exact .intro hPayload (interpret_eq_ok_iff.mp hContent)
  · intro h
    cases h with
    | @intro tag back payload _ hPayload hContent =>
        exact ⟨_, ⟨tag, payload⟩, [], ⟨back, hPayload, rfl⟩,
          ⟨rfl, interpret_eq_ok_iff.mpr hContent⟩, List.append_nil _⟩

theorem Record.length_bounds {registry : Registry} {config : Config} {record : Bytes}
    {attestation : Attestation} (h : registry.Record config record attestation) :
    9 ≤ record.length ∧ record.length ≤ 8210 := by
  cases h with
  | @intro tag text payload _ hPayload _ =>
      cases hPayload with
      | @intro front _ length hFront hLength _ hMax =>
          have hTag := tag.bytesLength
          have hPos := hFront.groups.length_pos
          have hShort : front.length ≤ 10 := hFront.length_le
          change payload.length ≤ 8192 at hMax
          rw [List.length_append, List.length_append]
          omega

/-- Reading at a cursor accepts exactly the records of the grammar that its bytes begin with, and
moves behind them. -/
theorem run_read_eq_ok_iff (cursor advanced : Cursor) (registry : Registry) (config : Config)
    (attestation : Attestation) :
    (cursor.run (registry.read config) = (.ok attestation, advanced) ↔
      ∃ record, registry.Record config record attestation ∧ record <+: cursor.rest ∧
        advanced = { cursor with position := cursor.position + record.length }) ∧
    (cursor.run (registry.read config) = (.ok attestation, advanced) →
      cursor.position + 9 ≤ advanced.position ∧ advanced.position ≤ cursor.position + 8210) := by
  have accepts := registry.reads_read config
  constructor
  · exact accepts.run_eq_ok_iff
  · intro h
    rcases accepts.run_eq_ok_iff.mp h with ⟨record, hRecord, _, rfl⟩
    have hBounds := hRecord.length_bounds
    dsimp only
    omega

end Registry

namespace Codec

theorem next_eq_ok_iff {codec : Codec} {cursor advanced : Cursor} {attestation : Attestation} :
    codec.next cursor = (.ok attestation, advanced) ↔
      cursor.run (codec.registry.read codec.config) = (.ok attestation, advanced) := by
  rw [next]
  rcases cursor.run (codec.registry.read codec.config) with ⟨_ | _, _⟩ <;>
    constructor <;> intro h <;> cases h <;> rfl

/-- What is decoded from the front is what the record there says, whatever follows it. -/
theorem first_eq_ok_iff {codec : Codec} {input : Bytes} {attestation : Attestation} {count : Nat} :
    codec.first input = .ok (attestation, count) ↔
      ∃ record, codec.registry.Record codec.config record attestation ∧ record <+: input ∧
        record.length = count := by
  have accepts := codec.registry.reads_read codec.config
  constructor
  · intro h
    cases hNext : codec.next (.ofBytes input) with
    | mk result advanced =>
        rw [first, hNext] at h
        cases result with
        | error error => cases h
        | ok value =>
            cases h
            rcases accepts.run_eq_ok_iff.mp (next_eq_ok_iff.mp hNext) with
              ⟨record, hRecord, hPrefix, rfl⟩
            exact ⟨record, hRecord, hPrefix, (Nat.zero_add _).symm⟩
  · intro h
    rcases h with ⟨record, hRecord, hPrefix, rfl⟩
    have hRun := accepts.run_eq_ok_iff.mpr
      ⟨record, hRecord, show record <+: (Cursor.ofBytes input).rest from hPrefix, rfl⟩
    rw [first, next_eq_ok_iff.mpr hRun]
    exact congrArg (fun position => Except.ok (attestation, position)) (Nat.zero_add _)

theorem decode_eq_ok_iff {codec : Codec} {input : Bytes} {attestation : Attestation} :
    codec.decode input = .ok attestation ↔
      codec.registry.Record codec.config input attestation := by
  constructor
  · intro h
    rw [decode] at h
    cases hFirst : codec.first input with
    | error error =>
        rw [hFirst] at h
        cases h
    | ok result =>
        rcases result with ⟨value, count⟩
        rw [hFirst] at h
        change (if count = input.length then _ else _) = _ at h
        split at h
        · rename_i whole
          cases h
          rcases first_eq_ok_iff.mp hFirst with ⟨record, hRecord, hPrefix, rfl⟩
          exact hPrefix.eq_of_length whole ▸ hRecord
        · cases h
  · intro h
    have hFirst := first_eq_ok_iff.mpr ⟨input, h, List.prefix_refl input, rfl⟩
    rw [decode, hFirst]
    change (if input.length = input.length then _ else _) = _
    rw [if_pos rfl]
    rfl

end Codec

end Timestamping
