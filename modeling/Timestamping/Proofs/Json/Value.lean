import Timestamping.Json.Value
import Timestamping.Proofs.Json.Token

/-!
Values read back. Every value is read from its tokens, and so from every text in which white space
stands between them.
-/

namespace Timestamping.Json

/-- Induction on a value, over the values in an array and behind the keys of an object. -/
@[elab_as_elim]
theorem induction {motive : Json → Prop} (scalar : ∀ value, motive (.scalar value))
    (array : ∀ items, (∀ item ∈ items, motive item) → motive (.array items))
    (object : ∀ members : List Member, (∀ member ∈ members, motive member.2) →
      motive (.object members))
    (value : Json) : motive value := by
  match value with
  | .scalar value => exact scalar value
  | .array items => exact array items fun item _ => induction scalar array object item
  | .object members =>
      exact object members fun member _ => induction scalar array object member.2
termination_by sizeOf value
decreasing_by
  · have inside := List.sizeOf_lt_of_mem ‹item ∈ items›
    rw [Json.array.sizeOf_spec]
    omega
  · have inside := List.sizeOf_lt_of_mem ‹member ∈ members›
    obtain ⟨key, value⟩ := member
    simp only [Prod.mk.sizeOf_spec, Json.object.sizeOf_spec] at *
    omega

/-! ### Written tokens -/

theorem itemTokens_cons (item : Json) {items : List Json} (h : items ≠ []) :
    itemTokens (item :: items) = item.tokens ++ .comma :: itemTokens items := by
  cases items with
  | nil => exact absurd rfl h
  | cons next rest => rw [itemTokens]

theorem memberTokens_cons (member : Member) {members : List Member} (h : members ≠ []) :
    memberTokens (member :: members) =
      .scalar (.string member.1) :: .colon ::
        (member.2.tokens ++ .comma :: memberTokens members) := by
  cases members with
  | nil => exact absurd rfl h
  | cons next rest => rw [memberTokens]; rfl

theorem separated_itemTokens {items : List Json}
    (h : ∀ item ∈ items, Token.Separated item.tokens) : Token.Separated (itemTokens items) := by
  induction items with
  | nil => exact .nil
  | cons item items ih =>
      obtain ⟨hItem, hItems⟩ := List.forall_mem_cons.mp h
      by_cases last : items = []
      · rw [last, itemTokens]
        exact hItem
      · rw [itemTokens_cons item last]
        exact hItem.append_cons rfl (ih hItems)

theorem separated_memberTokens {members : List Member}
    (h : ∀ member ∈ members, Token.Separated member.2.tokens) :
    Token.Separated (memberTokens members) := by
  induction members with
  | nil => exact .nil
  | cons member members ih =>
      obtain ⟨hMember, hMembers⟩ := List.forall_mem_cons.mp h
      by_cases last : members = []
      · rw [last, memberTokens]
        exact Token.Separated.append_cons (.singleton _) rfl hMember
      · rw [memberTokens_cons member last]
        exact Token.Separated.append_cons (.singleton _) rfl (hMember.append_cons rfl (ih hMembers))

theorem separated_tokens (value : Json) : Token.Separated value.tokens := by
  induction value using Json.induction with
  | scalar value =>
      rw [tokens]
      exact .singleton _
  | array items ih =>
      rw [tokens]
      exact ((separated_itemTokens ih).append_cons rfl .nil).cons rfl
  | object members ih =>
      rw [tokens]
      exact ((separated_memberTokens ih).append_cons rfl .nil).cons rfl

/-! ### Read tokens -/

/-- Wherever a value is awaited, its tokens are read as that value, and nothing behind them. -/
def Completes (value : Json) : Prop :=
  ∀ frames rest, (value.tokens ++ rest).foldlM step (.value frames) =
    rest.foldlM step (.complete value frames)

/-- The first item is read like one behind a comma, since no value begins with a bracket that
closes. -/
theorem foldlM_firstItem {items : List Json} (hSome : items ≠ []) (frames : List Frame)
    (rest : List Token) : (itemTokens items ++ rest).foldlM step (.firstItem frames) =
      (itemTokens items ++ rest).foldlM step (.value (.items [] :: frames)) := by
  rcases List.exists_cons_of_ne_nil hSome with ⟨item, items, rfl⟩
  obtain ⟨behind, hTokens⟩ : ∃ behind, itemTokens (item :: items) = item.tokens ++ behind := by
    by_cases last : items = []
    · rw [last, itemTokens]
      exact ⟨[], (List.append_nil _).symm⟩
    · exact ⟨_, itemTokens_cons item last⟩
  rw [hTokens]
  cases item with
  | _ =>
      rw [tokens]
      rfl

theorem foldlM_firstKey {members : List Member} (hSome : members ≠ []) (frames : List Frame)
    (rest : List Token) : (memberTokens members ++ rest).foldlM step (.firstKey frames) =
      (memberTokens members ++ rest).foldlM step (.nextKey [] frames) := by
  rcases List.exists_cons_of_ne_nil hSome with ⟨member, members, rfl⟩
  by_cases last : members = []
  · rw [last, memberTokens]
    rfl
  · rw [memberTokens_cons member last]
    rfl

theorem foldlM_itemTokens {items : List Json} (h : ∀ item ∈ items, item.Completes)
    (hSome : items ≠ []) (before : List Json) (frames : List Frame) (rest : List Token) :
    (itemTokens items ++ .closeArray :: rest).foldlM step (.value (.items before :: frames)) =
      rest.foldlM step (.complete (.array (before.reverse ++ items)) frames) := by
  induction items generalizing before with
  | nil => exact absurd rfl hSome
  | cons item items ih =>
      obtain ⟨hItem, hItems⟩ := List.forall_mem_cons.mp h
      by_cases last : items = []
      · rw [last, itemTokens, hItem]
        change rest.foldlM step (.complete (.array (item :: before).reverse) frames) = _
        rw [List.reverse_cons]
      · rw [itemTokens_cons item last, List.append_assoc, hItem]
        change (itemTokens items ++ .closeArray :: rest).foldlM step
          (.value (.items (item :: before) :: frames)) = _
        rw [ih hItems last, List.reverse_cons, List.append_assoc, List.singleton_append]

theorem foldlM_memberTokens {members : List Member}
    (h : ∀ member ∈ members, member.2.Completes) (hSome : members ≠ []) (before : List Member)
    (frames : List Frame) (rest : List Token) :
    (memberTokens members ++ .closeObject :: rest).foldlM step (.nextKey before frames) =
      rest.foldlM step (.complete (.object (before.reverse ++ members)) frames) := by
  induction members generalizing before with
  | nil => exact absurd rfl hSome
  | cons member members ih =>
      obtain ⟨hMember, hMembers⟩ := List.forall_mem_cons.mp h
      by_cases last : members = []
      · rw [last, memberTokens]
        change (member.2.tokens ++ .closeObject :: rest).foldlM step
          (.value (.member before member.1 :: frames)) = _
        rw [hMember]
        change rest.foldlM step (.complete (.object (member :: before).reverse) frames) = _
        rw [List.reverse_cons]
      · rw [memberTokens_cons member last]
        change ((member.2.tokens ++ .comma :: memberTokens members) ++
          .closeObject :: rest).foldlM step (.value (.member before member.1 :: frames)) = _
        rw [List.append_assoc, hMember]
        change (memberTokens members ++ .closeObject :: rest).foldlM step
          (.nextKey (member :: before) frames) = _
        rw [ih hMembers last, List.reverse_cons, List.append_assoc, List.singleton_append]

theorem completes (value : Json) : value.Completes := by
  induction value using Json.induction with
  | scalar value =>
      intro frames rest
      rw [tokens]
      rfl
  | array items ih =>
      intro frames rest
      rw [tokens, List.cons_append, List.cons_append, List.append_assoc]
      change (itemTokens items ++ .closeArray :: rest).foldlM step (.firstItem frames) = _
      by_cases none : items = []
      · rw [none, itemTokens]
        rfl
      · rw [foldlM_firstItem none, foldlM_itemTokens ih none]
        rfl
  | object members ih =>
      intro frames rest
      rw [tokens, List.cons_append, List.cons_append, List.append_assoc]
      change (memberTokens members ++ .closeObject :: rest).foldlM step (.firstKey frames) = _
      by_cases none : members = []
      · rw [none, memberTokens]
        rfl
      · rw [foldlM_firstKey none, foldlM_memberTokens ih none]
        rfl

theorem ofTokens?_tokens (value : Json) : ofTokens? value.tokens = some value := by
  have hTokens := value.completes [] []
  rw [List.append_nil] at hTokens
  rw [ofTokens?, hTokens]
  rfl

/-- White space may stand between all tokens, and around the value. -/
def SpelledBy (value : Json) (text : Text) : Prop :=
  Token.Spaced value.tokens text

instance (value : Json) (text : Text) : Decidable (value.SpelledBy text) :=
  inferInstanceAs (Decidable (Token.Spaced value.tokens text))

theorem spelledBy_render (value : Json) : value.SpelledBy value.render :=
  Token.spaced_flatMap_render value.tokens

theorem SpelledBy.parse?_eq {value : Json} {text : Text} (h : value.SpelledBy text) :
    parse? text = some value := by
  rw [parse?, Token.scan?_of_spaced h value.separated_tokens, Option.bind_eq_bind,
    Option.bind_some, ofTokens?_tokens]

end Timestamping.Json
