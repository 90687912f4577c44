import Timestamping.Proofs.Record.Refusal

/-!
What it changes that a kind is registered. Readers of records part only behind the envelope, and
there only where one of them looks up another kind than the other. Main statement: order and
repetition of registrations are without effect, a further kind is felt only by records with its own
tag, and how far a record goes, or that its envelope is refused, is the same for every registry.
-/

namespace Timestamping.Registry

/-- Registers one kind after the other. -/
def registerAll (registry : Registry) (kinds : List Kind) : Registry :=
  kinds.foldl register registry

/-! ### Looking up -/

theorem lookup_congr {first second : Registry}
    (same : ∀ kind, kind ∈ first.kinds ↔ kind ∈ second.kinds) (tag : Tag) :
    first.lookup tag = second.lookup tag := by
  apply Option.ext
  intro kind
  rw [lookup_eq_some_iff, lookup_eq_some_iff, same]

/-- Two kinds in the other order, and one of them twice. -/
example : (empty.registerAll [.bitcoin, .pending, .bitcoin]).lookup .pending =
    standard.lookup .pending := by decide

theorem mem_kinds_register {registry : Registry} {kind known : Kind} :
    known ∈ (registry.register kind).kinds ↔ known ∈ registry.kinds ∨ known = kind := by
  rw [register, List.mem_append, List.mem_singleton]

/-- A kind that is registered last is asked only for its own tag, and only if that was free. -/
theorem lookup_register {registry : Registry} {kind : Kind} {tag : Tag}
    (taken : kind.tag = tag → ∃ known ∈ registry.kinds, known.tag = tag) :
    (registry.register kind).lookup tag = registry.lookup tag := by
  apply Option.ext
  intro found
  rw [lookup_eq_some_iff, lookup_eq_some_iff, mem_kinds_register]
  constructor
  · rintro ⟨member | rfl, hTag⟩
    · exact ⟨member, hTag⟩
    · rcases taken hTag with ⟨known, member, hKnown⟩
      rw [← Kind.tag_injective (hKnown.trans hTag.symm)]
      exact ⟨member, hKnown⟩
  · rintro ⟨member, hTag⟩
    exact ⟨.inl member, hTag⟩

/-! ### Reading -/

/-- The envelope comes first: either it is whole, or everyone refuses it in the same words. -/
theorem spells_or_refused (cursor : Cursor) :
    (∃ text envelope, Envelope.Spells text envelope ∧ text <+: cursor.rest) ∨
      ∃ error, ∀ (registry : Registry) (config : Config),
        cursor.run (registry.read config) = (.error error, cursor) := by
  cases hRead : Envelope.read cursor.rest with
  | ok result =>
      rcases Envelope.reads_read.mp hRead with ⟨text, hText, hRest⟩
      exact .inl ⟨text, result.1, hText, ⟨result.2, hRest⟩⟩
  | error error =>
      have refused := Envelope.refuses_read.mp hRead
      exact .inr ⟨error, fun registry config =>
        (registry.refuses_read config).run_eq_error_iff.mpr ⟨.envelope refused, rfl⟩⟩

theorem run_read_congr {first second : Registry} {config : Config} {cursor : Cursor}
    {envelope : Envelope} {text : Bytes} (hEnvelope : Envelope.Spells text envelope)
    (hPrefix : text <+: cursor.rest)
    (same : first.lookup envelope.tag = second.lookup envelope.tag) :
    cursor.run (first.read config) = cursor.run (second.read config) := by
  have hContent : second.interpret config envelope = first.interpret config envelope := by
    rw [interpret, interpret, same]
  cases hFirst : first.interpret config envelope with
  | ok attestation =>
      rw [run_read_of_interpret_ok hEnvelope hPrefix hFirst,
        run_read_of_interpret_ok hEnvelope hPrefix (hContent.trans hFirst)]
  | error error =>
      rw [run_read_of_interpret_error hEnvelope hPrefix hFirst,
        run_read_of_interpret_error hEnvelope hPrefix (hContent.trans hFirst)]

/-- A record that is whole is passed over whole or not at all. -/
theorem run_read_of_spells {registry : Registry} {config : Config} {cursor : Cursor}
    {envelope : Envelope} {text : Bytes} (hEnvelope : Envelope.Spells text envelope)
    (hPrefix : text <+: cursor.rest) :
    (∃ attestation, cursor.run (registry.read config) =
      (.ok attestation, { cursor with position := cursor.position + text.length })) ∨
    ∃ error, cursor.run (registry.read config) = (.error error, cursor) := by
  cases hContent : registry.interpret config envelope with
  | ok attestation =>
      exact .inl ⟨attestation, run_read_of_interpret_ok hEnvelope hPrefix hContent⟩
  | error error => exact .inr ⟨error, run_read_of_interpret_error hEnvelope hPrefix hContent⟩

theorem run_empty_read_of_spells {cursor : Cursor} {envelope : Envelope} {text : Bytes}
    (hEnvelope : Envelope.Spells text envelope) (hPrefix : text <+: cursor.rest)
    (config : Config) :
    cursor.run (empty.read config) = (.ok (.unknown envelope.tag envelope.payload),
      { cursor with position := cursor.position + text.length }) :=
  run_read_of_unregistered hEnvelope hPrefix (List.forall_mem_nil _)

/-- Only the set of registered kinds counts, however it came about. A further kind changes nothing
but the reading of records with its tag, if no kind had that tag before. What is refused without any
kind is refused by everyone, and a record that is read without any kind ends in the same place for
everyone who reads it. -/
theorem run_read_registered (cursor : Cursor) (config : Config) :
    (∀ (base other : Registry) (history changes : List Kind),
      (∀ kind, kind ∈ (base.registerAll history).kinds ↔ kind ∈ (other.registerAll changes).kinds) →
      cursor.run ((base.registerAll history).read config) =
        cursor.run ((other.registerAll changes).read config)) ∧
    (∀ (registry : Registry) (kind : Kind),
      cursor.run ((registry.register kind).read config) ≠ cursor.run (registry.read config) →
      kind.tag.bytes <+: cursor.rest ∧ ∀ known ∈ registry.kinds, known.tag ≠ kind.tag) ∧
    (∀ error after, cursor.run (empty.read config) = (.error error, after) →
      ∀ (registry : Registry) (policy : Config),
        cursor.run (registry.read policy) = (.error error, after)) ∧
    ∀ attestation count, cursor.run (empty.read config) =
        (.ok attestation, { cursor with position := cursor.position + count }) →
      ∀ (registry : Registry) (policy : Config),
        (∃ value, cursor.run (registry.read policy) =
          (.ok value, { cursor with position := cursor.position + count })) ∨
        ∃ error, cursor.run (registry.read policy) = (.error error, cursor) := by
  rcases spells_or_refused cursor with ⟨text, envelope, hEnvelope, hPrefix⟩ | ⟨cause, refused⟩
  · have hEmpty := run_empty_read_of_spells hEnvelope hPrefix config
    refine ⟨?_, ?_, ?_, ?_⟩
    · intro base other history changes same
      exact run_read_congr hEnvelope hPrefix (lookup_congr same envelope.tag)
    · intro registry kind differ
      have untaken : ¬(kind.tag = envelope.tag →
          ∃ known ∈ registry.kinds, known.tag = envelope.tag) :=
        fun taken => differ (run_read_congr hEnvelope hPrefix (lookup_register taken))
      rcases Classical.not_imp.mp untaken with ⟨hTag, unowned⟩
      rw [hTag]
      rcases hEnvelope with ⟨back, _, rfl⟩
      exact ⟨(List.prefix_append _ back).trans hPrefix,
        fun known member owned => unowned ⟨known, member, owned⟩⟩
    · intro error after hError
      rw [hEmpty] at hError
      cases hError
    · intro attestation count hRead registry policy
      rw [hEmpty] at hRead
      have hCount := Nat.add_left_cancel (Cursor.mk.inj (Prod.mk.inj hRead).2).2
      rw [← hCount]
      exact run_read_of_spells hEnvelope hPrefix
  · refine ⟨?_, ?_, ?_, ?_⟩
    · intro base other history changes _
      rw [refused, refused]
    · intro registry kind differ
      exact absurd ((refused _ config).trans (refused registry config).symm) differ
    · intro error after hError registry policy
      rw [← hError, refused, refused]
    · intro attestation count hRead
      rw [refused] at hRead
      cases hRead

end Timestamping.Registry
