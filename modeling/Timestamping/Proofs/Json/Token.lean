import Mathlib.Data.List.Chain
import Timestamping.Json.Token
import Timestamping.Proofs.Json.Number
import Timestamping.Proofs.Json.Quoted

/-!
Tokens read back. White space between tokens changes nothing. Two scalars that touch could be read
as one, so tokens are read back from what was written only where something else stands between any
two scalars.
-/

namespace Timestamping.Token

/-- A text of these tokens, with white space before, between and behind them. -/
inductive Spaced : List Token → Text → Prop
  | done {blank : Text} : (∀ character ∈ blank, isSpace character = true) → Spaced [] blank
  | next {blank : Text} {token : Token} {tokens : List Token} {rest : Text} :
      (∀ character ∈ blank, isSpace character = true) → Spaced tokens rest →
      Spaced (token :: tokens) (blank ++ (token.render ++ rest))

/-- Whether a text is one of these tokens, with white space before, between and behind them. -/
def isSpaced : List Token → Text → Bool
  | [], text => text.all isSpace
  | token :: tokens, text =>
      token.render.isPrefixOf (text.dropWhile isSpace) &&
        isSpaced tokens ((text.dropWhile isSpace).drop token.render.length)

theorem spaced_flatMap_render (tokens : List Token) : Spaced tokens (tokens.flatMap render) := by
  induction tokens with
  | nil => exact .done (List.forall_mem_nil _)
  | cons token tokens ih => exact @Spaced.next [] token tokens _ (List.forall_mem_nil _) ih

def isScalar : Token → Bool
  | .scalar _ => true
  | _ => false

/-- No scalar stands right behind another. -/
def Separated (tokens : List Token) : Prop :=
  tokens.IsChain fun first second => first.isScalar = true → second.isScalar = false

theorem Separated.cons {token : Token} {tokens : List Token} (hToken : token.isScalar = false)
    (hTokens : Separated tokens) : Separated (token :: tokens) := by
  refine List.isChain_cons.mpr ⟨?_, hTokens⟩
  intro second _ impossible
  rw [hToken] at impossible
  cases impossible

theorem Separated.append_cons {front back : List Token} {token : Token} (hFront : Separated front)
    (hToken : token.isScalar = false) (hBack : Separated back) :
    Separated (front ++ token :: back) := by
  refine List.isChain_append.mpr ⟨hFront, hBack.cons hToken, ?_⟩
  rintro first _ second hSecond _
  cases hSecond
  exact hToken

/-! ### One token -/

theorem next?_number {first : Char} (h : first.isDigit = true ∨ first = '-') (rest : Text) :
    next? first rest = (Number.scan? (first :: rest)).map fun result =>
      (.scalar (.number result.1), result.2) := by
  unfold next?
  split
  case h_11 => rfl
  all_goals exact absurd h (by decide)

theorem isSpace_number {first : Char} (h : first.isDigit = true ∨ first = '-') :
    isSpace first = false := by
  rw [Bool.eq_false_iff]
  intro hSpace
  simp only [isSpace, Bool.or_eq_true, decide_eq_true_eq] at hSpace
  rcases hSpace with ((rfl | rfl) | rfl) | rfl
  all_goals exact absurd h (by decide)

theorem next?_render (token : Token) {rest : Text}
    (hRest : token.isScalar = true → Number.EndsBefore rest) :
    ∃ first tail, token.render = first :: tail ∧ isSpace first = false ∧
      next? first (tail ++ rest) = some (token, rest) := by
  cases token with
  | scalar value =>
      cases value with
      | null => exact ⟨'n', "ull".toList, rfl, by decide, rfl⟩
      | bool value =>
          cases value with
          | true => exact ⟨'t', "rue".toList, rfl, by decide, rfl⟩
          | false => exact ⟨'f', "alse".toList, rfl, by decide, rfl⟩
      | number number =>
          rcases number.render_eq_cons with ⟨first, tail, hRender, hFirst⟩
          have hScan := number.scan?_render (hRest rfl)
          rw [hRender, List.cons_append] at hScan
          refine ⟨first, tail, hRender, isSpace_number hFirst, ?_⟩
          rw [next?_number hFirst, hScan, Option.map_some]
      | string units =>
          refine ⟨'"', units.flatMap Quoted.renderUnit ++ ['"'], rfl, by decide, ?_⟩
          rw [List.append_assoc, List.singleton_append, next?, Quoted.body?_render,
            Option.map_some]
  | openArray => exact ⟨'[', [], rfl, by decide, rfl⟩
  | closeArray => exact ⟨']', [], rfl, by decide, rfl⟩
  | openObject => exact ⟨'\x7b', [], rfl, by decide, rfl⟩
  | closeObject => exact ⟨'\x7d', [], rfl, by decide, rfl⟩
  | colon => exact ⟨':', [], rfl, by decide, rfl⟩
  | comma => exact ⟨',', [], rfl, by decide, rfl⟩

/-! ### All tokens -/

theorem scan?_blank {blank : Text} (h : ∀ character ∈ blank, isSpace character = true)
    (rest : Text) : scan? (blank ++ rest) = scan? rest := by
  induction blank with
  | nil => rfl
  | cons character blank ih =>
      obtain ⟨hFirst, hRest⟩ := List.forall_mem_cons.mp h
      rw [List.cons_append, scan?, if_pos hFirst, ih hRest]

theorem scan?_render (token : Token) {rest : Text}
    (hRest : token.isScalar = true → Number.EndsBefore rest) :
    scan? (token.render ++ rest) = (scan? rest).map (token :: ·) := by
  rcases token.next?_render hRest with ⟨first, tail, hRender, notSpace, hNext⟩
  rw [hRender, List.cons_append, scan?, if_neg (Bool.eq_false_iff.mp notSpace)]
  split
  case h_1 found after h =>
    rw [hNext] at h
    cases h
    rfl
  case h_2 h =>
    rw [hNext] at h
    cases h

theorem endsBefore_of_isSpace {character : Char} (h : isSpace character = true) (rest : Text) :
    Number.EndsBefore (character :: rest) := by
  simp only [isSpace, Bool.or_eq_true, decide_eq_true_eq] at h
  rintro _ hFirst
  cases hFirst
  rcases h with ((rfl | rfl) | rfl) | rfl
  all_goals decide

theorem endsBefore_render {token : Token} (h : token.isScalar = false) (rest : Text) :
    Number.EndsBefore (token.render ++ rest) := by
  rintro _ hFirst
  cases token with
  | scalar value => cases h
  | _ =>
      cases hFirst
      decide

theorem Spaced.endsBefore {tokens : List Token} {text : Text} (h : Spaced tokens text)
    (hFirst : ∀ token ∈ tokens.head?, token.isScalar = false) : Number.EndsBefore text := by
  cases h with
  | done hBlank =>
      cases text with
      | nil =>
          rintro _ impossible
          cases impossible
      | cons character blank => exact endsBefore_of_isSpace (hBlank _ List.mem_cons_self) _
  | @next blank token tokens rest hBlank _ =>
      cases blank with
      | nil => exact endsBefore_render (hFirst token rfl) rest
      | cons character blank => exact endsBefore_of_isSpace (hBlank _ List.mem_cons_self) _

theorem scan?_of_spaced {tokens : List Token} {text : Text} (h : Spaced tokens text)
    (hTokens : Separated tokens) : scan? text = some tokens := by
  induction h with
  | @done blank hBlank => simpa [scan?] using scan?_blank hBlank []
  | @next blank token tokens rest hBlank hSpaced ih =>
      obtain ⟨hApart, hRest⟩ := List.isChain_cons.mp hTokens
      have ends : token.isScalar = true → Number.EndsBefore rest := fun isScalar =>
        hSpaced.endsBefore fun next hNext => hApart next hNext isScalar
      rw [scan?_blank hBlank, scan?_render token ends, ih hRest, Option.map_some]

/-! ### Checked white space -/

theorem spaced_of_isSpaced {tokens : List Token} {text : Text} (h : isSpaced tokens text = true) :
    Spaced tokens text := by
  induction tokens generalizing text with
  | nil => exact .done (List.all_eq_true.mp h)
  | cons token tokens ih =>
      obtain ⟨hPrefix, hRest⟩ := Bool.and_eq_true_iff.mp h
      rcases List.isPrefixOf_iff_prefix.mp hPrefix with ⟨rest, hText⟩
      rw [← hText, List.drop_left] at hRest
      have hBlank : ∀ character ∈ text.takeWhile isSpace, isSpace character = true :=
        List.all_eq_true.mp List.all_takeWhile
      rw [← text.takeWhile_append_dropWhile (p := isSpace), ← hText]
      exact .next hBlank (ih hRest)

theorem dropWhile_blank_append {blank : Text} (h : ∀ character ∈ blank, isSpace character = true)
    (token : Token) (rest : Text) :
    (blank ++ (token.render ++ rest)).dropWhile isSpace = token.render ++ rest := by
  have ends : token.isScalar = true → Number.EndsBefore [] := by
    intro _ character impossible
    cases impossible
  rcases token.next?_render ends with ⟨first, tail, hRender, notSpace, _⟩
  rw [List.dropWhile_append_of_pos h, hRender, List.cons_append, List.dropWhile_cons_of_neg]
  exact Bool.eq_false_iff.mp notSpace

theorem isSpaced_iff {tokens : List Token} {text : Text} :
    isSpaced tokens text = true ↔ Spaced tokens text := by
  constructor
  · exact spaced_of_isSpaced
  · intro h
    induction h with
    | done hBlank => exact List.all_eq_true.mpr hBlank
    | @next blank token tokens rest hBlank _ ih =>
        rw [isSpaced, dropWhile_blank_append hBlank, List.drop_left, ih, Bool.and_true]
        exact List.isPrefixOf_iff_prefix.mpr (List.prefix_append _ _)

instance (tokens : List Token) (text : Text) : Decidable (Spaced tokens text) :=
  decidable_of_iff _ isSpaced_iff

end Timestamping.Token
