import Railroad.Proofs.Page.Segments

/-!
# Links are inserted

Links are found by a pattern: an opening tag, blanks, a content on one line, blanks and the closing
tag, where blanks in front of the content are taken as far as possible and the content is as short
as possible.  A page is searched for the pattern from left to right, and nothing but the tags of
links is put into it.
-/

namespace Railroad.Page

/-- The parts of the element fit the pattern. -/
structure TextElement.Matches (element : TextElement) : Prop where
  opening : ∃ blank attributes, element.opening = "<text".toList ++ blank :: attributes ++ ['>'] ∧
    Text.isBlank blank = true ∧ '>' ∉ attributes
  leading : ∀ c ∈ element.leading, Text.isBlank c = true
  content : element.content ≠ [] ∧ '\n' ∉ element.content
  trailing : ∀ c ∈ element.trailing, Text.isBlank c = true

/-- The text begins with something that fits the pattern. -/
def BeginsElement (text : List Char) : Prop :=
  ∃ element rest, TextElement.Matches element ∧ text = element.written ++ rest

/-- More blanks before the content are tried first, then less of a content. -/
def TextElement.Before (element other : TextElement) : Prop :=
  other.leading.length < element.leading.length ∨
    other.leading.length = element.leading.length ∧ element.content.length ≤ other.content.length

/-- The element fits the pattern, and before any other one that the text begins with. -/
structure TextElement.IsFirst (element : TextElement) (text : List Char) : Prop where
  fits : element.Matches
  first : ∀ other rest, other.Matches → text = other.written ++ rest → element.Before other

/-- The elements are what a search from left to right finds. -/
def Segments.Leftmost : Segments → Prop
  | last plain => ∀ front c back, plain = front ++ c :: back → ¬BeginsElement (c :: back)
  | cut plain element rest =>
      (∀ front c back, plain = front ++ c :: back →
        ¬BeginsElement (c :: back ++ element.written ++ rest.text TextElement.written)) ∧
      element.IsFirst (element.written ++ rest.text TextElement.written) ∧ rest.Leftmost

theorem content?_fits {taken text content trailing rest : List Char} (line : '\n' ∉ taken)
    (found : content? taken text = some (content, trailing, rest)) :
    (content ≠ [] ∧ '\n' ∉ content) ∧ ∀ c ∈ trailing, Text.isBlank c = true := by
  fun_induction content? taken text with
  | case1 => cases found
  | case2 => cases found
  | case3 taken c tail notBreak blanks after ends =>
      cases found
      refine ⟨⟨by simp, ?_⟩, (closing?_eq_some_iff.mp ends).1⟩
      rw [List.mem_reverse, List.mem_cons, not_or]
      exact ⟨Ne.symm notBreak, line⟩
  | case4 taken c tail notBreak none ih =>
      refine ih ?_ found
      rw [List.mem_cons, not_or]
      exact ⟨Ne.symm notBreak, line⟩

/-- Where there is a content, one is found that is no longer. -/
theorem content?_shortest (taken rest : List Char) {inner trailing : List Char}
    (some : inner ≠ []) (line : '\n' ∉ inner) (blank : ∀ c ∈ trailing, Text.isBlank c = true) :
    ∃ content behind tail,
      content? taken (inner ++ trailing ++ closingTag ++ rest) = .some (content, behind, tail) ∧
        content.length ≤ taken.length + inner.length := by
  induction inner generalizing taken with
  | nil => exact absurd rfl some
  | cons c others ih =>
      rw [List.mem_cons, not_or] at line
      rw [List.cons_append, List.cons_append, List.cons_append, content?,
        if_neg (Ne.symm line.1)]
      cases closes : closing? (others ++ trailing ++ closingTag ++ rest) with
      | some found =>
          refine ⟨_, _, _, rfl, ?_⟩
          simp only [List.length_reverse, List.length_cons]
          omega
      | none =>
          have more : others ≠ [] := by
            rintro rfl
            have here : closing? (trailing ++ closingTag ++ rest) = .some (trailing, rest) :=
              closing?_eq_some_iff.mpr ⟨blank, rfl⟩
            exact absurd (closes.symm.trans here) (Option.some_ne_none _).symm
          obtain ⟨content, behind, tail, found, short⟩ := ih (c :: taken) more line.2
          refine ⟨content, behind, tail, found, ?_⟩
          simp only [List.length_cons] at short ⊢
          omega

theorem body?_fits {opening blanks text rest : List Char} {element : TextElement}
    (blank : ∀ c ∈ blanks, Text.isBlank c = true)
    (found : body? opening blanks text = some (element, rest)) :
    element.opening = opening ∧ (∀ c ∈ element.leading, Text.isBlank c = true) ∧
      (element.content ≠ [] ∧ '\n' ∉ element.content) ∧
        ∀ c ∈ element.trailing, Text.isBlank c = true := by
  fun_induction body? opening blanks text with
  | case1 text content trailing tail inside =>
      cases found
      exact ⟨rfl, fun _ none => absurd none List.not_mem_nil, content?_fits List.not_mem_nil inside⟩
  | case2 => cases found
  | case3 text first blanks content trailing tail inside =>
      cases found
      exact ⟨rfl, fun c member => blank c (List.mem_reverse.mp member),
        content?_fits List.not_mem_nil inside⟩
  | case4 text first blanks none ih =>
      exact ih (fun c member => blank c (List.mem_cons_of_mem _ member)) found

/-- Where the blanks can be cut in front of a content, an element is found that comes before. -/
theorem body?_first {opening blanks text : List Char} {other : TextElement} {rest : List Char}
    (fits : other.Matches) (inside : other.leading.length ≤ blanks.length)
    (split : blanks.reverse ++ text =
      other.leading ++ (other.content ++ other.trailing ++ closingTag ++ rest)) :
    ∃ element tail, body? opening blanks text = some (element, tail) ∧ element.Before other := by
  -- behind all of the blanks, the content of the other element is what stands there
  have behind (whole : other.leading.length = blanks.length) :
      text = other.content ++ other.trailing ++ closingTag ++ rest :=
    (List.append_inj split (by rw [List.length_reverse, whole])).2
  have shortest := content?_shortest [] rest fits.content.1 fits.content.2 fits.trailing
  induction blanks generalizing text with
  | nil =>
      have whole : other.leading.length = 0 := Nat.le_zero.mp inside
      obtain ⟨content, trailing, tail, found, short⟩ := shortest
      rw [← behind whole] at found
      rw [body?, found]
      refine ⟨_, _, rfl, Or.inr ⟨whole, ?_⟩⟩
      simpa using short
  | cons blank blanks ih =>
      rw [body?]
      cases found : content? [] text with
      | some parts =>
          refine ⟨_, _, rfl, ?_⟩
          rcases Nat.lt_or_eq_of_le inside with shorter | whole
          · exact Or.inl (by simpa using shorter)
          · obtain ⟨content, trailing, tail, foundToo, short⟩ := shortest
            rw [← behind whole, found] at foundToo
            cases foundToo
            exact Or.inr ⟨by simpa using whole, by simpa using short⟩
      | none =>
          have shorter : other.leading.length ≤ blanks.length := by
            rcases Nat.lt_or_eq_of_le inside with shorter | whole
            · exact Nat.le_of_lt_succ shorter
            · obtain ⟨content, trailing, tail, foundToo, -⟩ := shortest
              rw [← behind whole, found] at foundToo
              cases foundToo
          have splitToo : blanks.reverse ++ blank :: text =
              other.leading ++ (other.content ++ other.trailing ++ closingTag ++ rest) := by
            rw [← split, List.reverse_cons, List.append_assoc]
            rfl
          exact ih shorter splitToo fun whole =>
            (List.append_inj splitToo (by rw [List.length_reverse, whole])).2

theorem textElement?_matches {text rest : List Char} {element : TextElement}
    (found : textElement? text = some (element, rest)) : element.Matches := by
  unfold textElement? at found
  split at found
  next => cases found
  next opening tail begins =>
    have blank : ∀ c ∈ (tail.takeWhile Text.isBlank).reverse, Text.isBlank c = true :=
      fun c member => List.all_eq_true.mp List.all_takeWhile c (List.mem_reverse.mp member)
    obtain ⟨same, leading, content, trailing⟩ := body?_fits blank found
    exact ⟨same ▸ (opening?_eq_some_iff.mp begins).1, leading, content, trailing⟩

/-- What a text begins with is found, or something that comes before it. -/
theorem textElement?_first {text rest : List Char} {other : TextElement} (fits : other.Matches)
    (begins : text = other.written ++ rest) :
    ∃ element tail, textElement? text = some (element, tail) ∧ element.Before other := by
  have cut : text = other.opening ++
      (other.leading ++ (other.content ++ other.trailing ++ closingTag ++ rest)) := by
    rw [begins, TextElement.written]
    simp only [List.append_assoc]
  have inside : other.leading.length ≤ ((other.leading ++ (other.content ++ other.trailing ++
      closingTag ++ rest)).takeWhile Text.isBlank).reverse.length := by
    rw [List.length_reverse, List.takeWhile_append_of_pos fits.leading, List.length_append]
    exact Nat.le_add_right _ _
  rw [textElement?, opening?_eq_some_iff.mpr ⟨fits.opening, cut⟩]
  exact body?_first fits inside (by rw [List.reverse_reverse, List.takeWhile_append_dropWhile])

theorem textElement?_isFirst {text rest : List Char} {element : TextElement}
    (found : textElement? text = some (element, rest)) : element.IsFirst text where
  fits := textElement?_matches found
  first other tail fits begins := by
    obtain ⟨_, _, foundToo, before⟩ := textElement?_first fits begins
    cases found.symm.trans foundToo
    exact before

theorem not_beginsElement {text : List Char} (none : textElement? text = none) :
    ¬BeginsElement text := by
  rintro ⟨element, rest, fits, begins⟩
  obtain ⟨_, _, found, _⟩ := textElement?_first fits begins
  exact absurd (none.symm.trans found) (Option.some_ne_none _).symm

/-- If no element begins among the characters passed over, the search is leftmost. -/
theorem segmentsFrom_leftmost {plain text : List Char}
    (passed : ∀ front c back, plain.reverse = front ++ c :: back →
      ¬BeginsElement (c :: back ++ text)) : (segmentsFrom plain text).Leftmost := by
  fun_induction segmentsFrom plain text with
  | case1 plain text element rest found ih =>
      have behind : (segmentsFrom [] rest).text TextElement.written = rest :=
        segmentsFrom_text [] rest
      have whole := textElement?_written found
      rw [Segments.Leftmost, behind, ← whole]
      refine ⟨fun front c back split => ?_, textElement?_isFirst found, ih ?_⟩
      · rw [List.append_assoc, ← whole]
        exact passed front c back split
      · intro front c back split
        exact absurd split (by simp)
  | case2 plain none =>
      intro front c back split
      have here := passed front c back split
      rwa [List.append_nil] at here
  | case3 plain c rest none ih =>
      refine ih fun front d back split => ?_
      rw [List.reverse_cons] at split
      rcases List.append_eq_append_iff.mp split with ⟨more, _, tail⟩ | ⟨more, before, tail⟩
      · cases more with
        | nil =>
            obtain ⟨rfl, rfl⟩ := List.cons.inj tail
            exact not_beginsElement none
        | cons e others => exact absurd (List.cons.inj tail).2 (by simp)
      · cases more with
        | nil =>
            obtain ⟨rfl, rfl⟩ := List.cons.inj tail
            exact not_beginsElement none
        | cons e others =>
            obtain ⟨rfl, rfl⟩ := List.cons.inj tail
            have here := passed front d others before
            rwa [List.append_cons (d :: others)] at here

/--
Links are put around the elements of a page that show the name of a rule, and everything else stays
as it is.  The elements are those that the pattern finds from left to right; of a link only the
name of the page and the shown name matter, both escaped.
-/
theorem addLinks_inserts (fileName : String) (isRule : String → Bool) (page : String) :
    ∃ cut : Segments, cut.Leftmost ∧ cut.text TextElement.written = page.toList ∧
      (addLinks fileName isRule page).toList = cut.text (fun element =>
        if isRule (String.ofList element.content) then
          "<a xlink:href=\"#".toList ++
            (escape (fileName ++ "_" ++ String.ofList element.content)).toList ++ "\">".toList ++
            element.written ++ "</a>".toList
        else element.written) ∧
      addLinks fileName (fun _ => false) page = page := by
  refine ⟨segments page.toList, ?_, segments_text page.toList, ?_, ?_⟩
  · exact segmentsFrom_leftmost fun front c back split => absurd split (by simp)
  · exact String.toList_ofList
  · have unchanged : TextElement.linked fileName (fun _ => false) = TextElement.written := by
      funext element
      rw [TextElement.linked, if_neg Bool.false_ne_true]
    rw [addLinks, unchanged, segments_text, String.ofList_toList]

end Railroad.Page
