import Mathlib.Data.List.Basic
import Railroad.Page.Links

/-!
# Segments of a page

What is taken from a text for an element, and for its parts, is what stands there.  So the segments
of a page, with all elements as they are written, are the page again.
-/

namespace Railroad.Page

/-- An opening tag is its mark, a blank and attributes up to the first `>`. -/
theorem opening?_eq_some_iff {text opening rest : List Char} :
    opening? text = some (opening, rest) ↔
      (∃ blank attributes, opening = "<text".toList ++ blank :: attributes ++ ['>'] ∧
        Text.isBlank blank = true ∧ '>' ∉ attributes) ∧ text = opening ++ rest := by
  constructor
  · intro found
    unfold opening? at found
    split at found
    next => cases found
    next => cases found
    next blank tail begins =>
      split at found
      next isBlank =>
        split at found
        next => cases found
        next close after ends =>
          have cut := List.takeWhile_append_dropWhile (p := (· != '>')) (l := tail)
          have stops := List.head?_dropWhile_not (· != '>') tail
          rw [ends] at cut stops
          have closes : close = '>' := by simpa using stops
          cases found
          refine ⟨⟨blank, tail.takeWhile (· != '>'), by rw [closes]; rfl, isBlank, ?_⟩, ?_⟩
          · intro inside
            exact absurd (List.all_eq_true.mp List.all_takeWhile '>' inside) (by decide)
          · rw [← List.append_eq_of_isPrefixOf?_eq_some begins]
            simpa using cut.symm
      next => cases found
  · rintro ⟨⟨blank, attributes, rfl, isBlank, free⟩, rfl⟩
    have begins : openingMark.isPrefixOf? ("<text".toList ++ blank :: attributes ++ ['>'] ++ rest) =
        some (blank :: (attributes ++ '>' :: rest)) :=
      List.isPrefixOf?_eq_some_iff_append_eq.mpr (by simp [openingMark])
    have passes : ∀ c ∈ attributes, (c != '>') = true := fun c member =>
      bne_iff_ne.mpr fun same => free (same ▸ member)
    rw [opening?, begins]
    simp only [isBlank, if_true]
    rw [List.dropWhile_append_of_pos passes, List.takeWhile_append_of_pos passes,
      List.dropWhile_cons_of_neg (by decide), List.takeWhile_cons_of_neg (by decide),
      List.append_nil]
    rfl

/-- Blanks and the closing tag behind them. -/
theorem closing?_eq_some_iff {text trailing rest : List Char} :
    closing? text = some (trailing, rest) ↔
      (∀ c ∈ trailing, Text.isBlank c = true) ∧ text = trailing ++ closingTag ++ rest := by
  constructor
  · intro found
    unfold closing? at found
    split at found
    next => cases found
    next tail ends =>
      have cut := List.takeWhile_append_dropWhile (p := Text.isBlank) (l := text)
      rw [← List.append_eq_of_isPrefixOf?_eq_some ends] at cut
      cases found
      refine ⟨List.all_eq_true.mp List.all_takeWhile, ?_⟩
      rw [List.append_assoc]
      exact cut.symm
  · rintro ⟨blank, rfl⟩
    rw [closing?, List.append_assoc, List.dropWhile_append_of_pos blank,
      List.takeWhile_append_of_pos blank]
    have stops : (closingTag ++ rest).dropWhile Text.isBlank = closingTag ++ rest :=
      List.dropWhile_cons_of_neg (by decide)
    have none : (closingTag ++ rest).takeWhile Text.isBlank = [] :=
      List.takeWhile_cons_of_neg (by decide)
    rw [stops, none, List.isPrefixOf?_eq_some_iff_append_eq.mpr rfl, List.append_nil]

theorem content?_written {taken text content trailing rest : List Char}
    (found : content? taken text = some (content, trailing, rest)) :
    taken.reverse ++ text = content ++ trailing ++ closingTag ++ rest := by
  fun_induction content? taken text with
  | case1 => cases found
  | case2 => cases found
  | case3 taken c tail notBreak blanks after ends =>
      cases found
      rw [(closing?_eq_some_iff.mp ends).2]
      simp
  | case4 taken c tail notBreak none ih =>
      simpa using ih found

theorem body?_written {opening blanks text rest : List Char} {element : TextElement}
    (found : body? opening blanks text = some (element, rest)) :
    opening ++ blanks.reverse ++ text = element.written ++ rest := by
  fun_induction body? opening blanks text with
  | case1 text content trailing tail inside =>
      cases found
      simpa [TextElement.written] using content?_written inside
  | case2 => cases found
  | case3 text blank blanks content trailing tail inside =>
      cases found
      simpa [TextElement.written] using content?_written inside
  | case4 text blank blanks none ih =>
      simpa using ih found

theorem textElement?_written {text rest : List Char} {element : TextElement}
    (found : textElement? text = some (element, rest)) : text = element.written ++ rest := by
  unfold textElement? at found
  split at found
  next => cases found
  next opening tail begins =>
    have body := body?_written found
    rw [List.reverse_reverse, List.append_assoc, List.takeWhile_append_dropWhile] at body
    rw [(opening?_eq_some_iff.mp begins).2, body]

theorem segmentsFrom_text (plain text : List Char) :
    (segmentsFrom plain text).text TextElement.written = plain.reverse ++ text := by
  fun_induction segmentsFrom plain text with
  | case1 plain text element rest found ih =>
      rw [Segments.text, ih, textElement?_written found]
      simp
  | case2 => simp [Segments.text]
  | case3 plain c rest none ih => simpa using ih

theorem segments_text (text : List Char) : (segments text).text TextElement.written = text :=
  segmentsFrom_text [] text

end Railroad.Page
