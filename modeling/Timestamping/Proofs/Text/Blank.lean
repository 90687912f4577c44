import Mathlib.Data.List.TakeWhile
import Timestamping.Text.Blank

/-!
White space at the ends of a text. Main statement: what trimming leaves is the one part of the text
that has white space on both sides and at neither end, so white space that is put around a text does
not matter.
-/

namespace Timestamping.Blank

/-- Nothing but white space. -/
def IsSpace (text : Text) : Prop :=
  ∀ character ∈ text, isBlank character = true

instance (text : Text) : Decidable (IsSpace text) :=
  List.decidableBAll _ text

theorem IsSpace.append {first second : Text} (hFirst : IsSpace first) (hSecond : IsSpace second) :
    IsSpace (first ++ second) :=
  List.forall_mem_append.mpr ⟨hFirst, hSecond⟩

theorem IsSpace.reverse {text : Text} (h : IsSpace text) : IsSpace text.reverse :=
  fun character member => h character (List.mem_reverse.mp member)

/-- No white space at either end. -/
structure IsBare (text : Text) : Prop where
  head : ∀ character ∈ text.head?, isBlank character = false
  last : ∀ character ∈ text.getLast?, isBlank character = false

theorem IsBare.of_forall {text : Text} (h : ∀ character ∈ text, isBlank character = false) :
    IsBare text :=
  ⟨fun character hHead => h character (List.mem_of_mem_head? hHead),
    fun character hLast => h character (List.mem_of_getLast? hLast)⟩

/-! ### The front -/

theorem exists_trimStart (text : Text) :
    ∃ front, IsSpace front ∧ front ++ trimStart text = text :=
  ⟨text.takeWhile isBlank, fun _ => List.mem_takeWhile_imp, List.takeWhile_append_dropWhile⟩

theorem trimStart_append {front : Text} (hFront : IsSpace front) (text : Text) :
    trimStart (front ++ text) = trimStart text :=
  List.dropWhile_append_of_pos hFront

theorem head_trimStart (text : Text) :
    ∀ character ∈ (trimStart text).head?, isBlank character = false := by
  intro character hHead
  have stops := List.head?_dropWhile_not isBlank text
  rw [trimStart, Option.mem_def] at hHead
  simpa only [hHead, Bool.not_eq_true'] using stops

theorem trimStart_of_head {text : Text}
    (h : ∀ character ∈ text.head?, isBlank character = false) : trimStart text = text := by
  cases text with
  | nil => rfl
  | cons character text =>
      have stops := h character rfl
      exact List.dropWhile_cons_of_neg (Bool.eq_false_iff.mp stops)

/-! ### Both ends -/

theorem trim_of_isBare {front bare back : Text} (hFront : IsSpace front) (hBack : IsSpace back)
    (hBare : IsBare bare) : trim (front ++ bare ++ back) = bare := by
  rw [trim, List.append_assoc, trimStart_append hFront]
  cases bare with
  | nil =>
      have nothing : trimStart back = [] := List.dropWhile_eq_nil_iff.mpr hBack
      rw [List.nil_append, nothing]
      rfl
  | cons character bare =>
      have hHead : trimStart (character :: bare ++ back) = character :: bare ++ back :=
        trimStart_of_head hBare.head
      have hLast : trimStart (character :: bare).reverse = (character :: bare).reverse := by
        apply trimStart_of_head
        rw [List.head?_reverse]
        exact hBare.last
      change (trimStart (trimStart (character :: bare ++ back)).reverse).reverse = character :: bare
      rw [hHead, List.reverse_append, trimStart_append hBack.reverse, hLast, List.reverse_reverse]

theorem exists_trim (text : Text) : ∃ front back, IsSpace front ∧ IsSpace back ∧
    front ++ trim text ++ back = text ∧ IsBare (trim text) := by
  rcases exists_trimStart text with ⟨front, hFront, hText⟩
  rcases exists_trimStart (trimStart text).reverse with ⟨back, hBack, hRest⟩
  have hEnd : trim text ++ back.reverse = trimStart text := by
    change (trimStart (trimStart text).reverse).reverse ++ back.reverse = _
    rw [← List.reverse_append, hRest, List.reverse_reverse]
  refine ⟨front, back.reverse, hFront, hBack.reverse, ?_, ?_, ?_⟩
  · rw [List.append_assoc, hEnd, hText]
  · intro character hHead
    apply head_trimStart text
    rw [← hEnd, List.head?_append, Option.mem_def.mp hHead]
    rfl
  · intro character hLast
    apply head_trimStart (trimStart text).reverse
    rw [← List.getLast?_reverse]
    exact hLast

/-- White space around a text is trimmed with what the text has itself. -/
theorem trim_append {front back : Text} (hFront : IsSpace front) (hBack : IsSpace back)
    (text : Text) : trim (front ++ text ++ back) = trim text := by
  rcases exists_trim text with ⟨before, behind, hBefore, hBehind, hText, hBare⟩
  have hWhole : front ++ text ++ back = front ++ before ++ trim text ++ (behind ++ back) := by
    calc front ++ text ++ back
        = front ++ (before ++ trim text ++ behind) ++ back := by rw [hText]
      _ = front ++ before ++ trim text ++ (behind ++ back) := by simp only [List.append_assoc]
  rw [hWhole, trim_of_isBare (hFront.append hBefore) (hBehind.append hBack) hBare]

end Timestamping.Blank
