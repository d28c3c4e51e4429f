import Railroad.Page.Anchor
import Railroad.Text.Classes
import Railroad.Text.Replace

/-!
# Cross links

A page is cut at its text elements, and an element that shows the name of a rule is put into a
link to the row of that rule.  All other characters of the page stay where they are.
-/

namespace Railroad

namespace Page

/-- A text element, taken apart: its opening tag, its content and the blanks around it. -/
structure TextElement where
  opening : List Char
  leading : List Char
  content : List Char
  trailing : List Char
  deriving DecidableEq, Repr

def openingMark : List Char := "<text".toList

def closingTag : List Char := "</text>".toList

def TextElement.written (element : TextElement) : List Char :=
  element.opening ++ element.leading ++ element.content ++ element.trailing ++ closingTag

/-- An opening tag: its mark, a blank and everything up to the first `>`. -/
def opening? (text : List Char) : Option (List Char × List Char) :=
  match openingMark.isPrefixOf? text with
  | none | some [] => none
  | some (blank :: rest) =>
      if Text.isBlank blank then
        match rest.dropWhile (· != '>') with
        | [] => none
        | close :: tail =>
            some (openingMark ++ blank :: rest.takeWhile (· != '>') ++ [close], tail)
      else none

/-- Blanks and the closing tag. -/
def closing? (text : List Char) : Option (List Char × List Char) :=
  match closingTag.isPrefixOf? (text.dropWhile Text.isBlank) with
  | none => none
  | some tail => some (text.takeWhile Text.isBlank, tail)

/--
The shortest content, of at least one character and within one line, that a closing tag
follows: the content, the blanks behind it and the text after the closing tag.  The characters
already taken are given in reverse.
-/
def content? (taken : List Char) : List Char → Option (List Char × List Char × List Char)
  | [] => none
  | c :: rest =>
      if c = '\n' then none
      else
        match closing? rest with
        | some (trailing, tail) => some ((c :: taken).reverse, trailing, tail)
        | none => content? (c :: taken) rest

/--
The content behind as many blanks as possible.  Where there is none behind all of them, the
last blank is taken for a part of the content.
-/
def body? (opening : List Char) : List Char → List Char → Option (TextElement × List Char)
  | [], text =>
      match content? [] text with
      | some (content, trailing, tail) => some (⟨opening, [], content, trailing⟩, tail)
      | none => none
  | blank :: blanks, text =>
      match content? [] text with
      | some (content, trailing, tail) =>
          some (⟨opening, (blank :: blanks).reverse, content, trailing⟩, tail)
      | none => body? opening blanks (blank :: text)

/-- The text element that a text begins with, and what follows it. -/
def textElement? (text : List Char) : Option (TextElement × List Char) :=
  match opening? text with
  | none => none
  | some (opening, rest) =>
      body? opening (rest.takeWhile Text.isBlank).reverse (rest.dropWhile Text.isBlank)

theorem length_of_opening? {text opening rest : List Char}
    (found : opening? text = some (opening, rest)) : rest.length ≤ text.length := by
  unfold opening? at found
  split at found
  next => cases found
  next => cases found
  next blank tail begins =>
    split at found
    next =>
      split at found
      next => cases found
      next close behind ends =>
        cases found
        have shorter := Text.length_of_isPrefixOf? begins
        have inner := (List.dropWhile_suffix (l := tail) (· != '>')).length_le
        rw [ends] at inner
        simp only [List.length_cons] at shorter inner
        omega
    next => cases found

theorem length_of_closing? {text trailing rest : List Char}
    (found : closing? text = some (trailing, rest)) : rest.length ≤ text.length := by
  unfold closing? at found
  split at found
  next => cases found
  next tail ends =>
    cases found
    exact Nat.le_trans (Text.length_of_isPrefixOf? ends) (List.dropWhile_suffix _).length_le

theorem length_of_content? {taken text content trailing rest : List Char}
    (found : content? taken text = some (content, trailing, rest)) : rest.length < text.length := by
  fun_induction content? taken text with
  | case1 => cases found
  | case2 => cases found
  | case3 taken c tail notBreak blanks behind ends =>
      cases found
      exact Nat.lt_succ_of_le (length_of_closing? ends)
  | case4 taken c tail notBreak none ih => exact Nat.lt_succ_of_lt (ih found)

theorem length_of_body? {opening blanks text rest : List Char} {element : TextElement}
    (found : body? opening blanks text = some (element, rest)) :
    rest.length < blanks.length + text.length := by
  fun_induction body? opening blanks text with
  | case1 text content trailing tail inside =>
      cases found
      exact Nat.lt_add_left _ (length_of_content? inside)
  | case2 => cases found
  | case3 text blank blanks content trailing tail inside =>
      cases found
      exact Nat.lt_add_left _ (length_of_content? inside)
  | case4 text blank blanks none ih =>
      have shorter := ih found
      simp only [List.length_cons] at shorter ⊢
      omega

theorem length_of_textElement? {text rest : List Char} {element : TextElement}
    (found : textElement? text = some (element, rest)) : rest.length < text.length := by
  unfold textElement? at found
  split at found
  next => cases found
  next opening tail begins =>
    have shorter := length_of_body? found
    rw [List.length_reverse, ← List.length_append, List.takeWhile_append_dropWhile] at shorter
    exact Nat.lt_of_lt_of_le shorter (length_of_opening? begins)

/-- A text between its text elements. -/
inductive Segments where
  | last (plain : List Char)
  | cut (plain : List Char) (element : TextElement) (rest : Segments)
  deriving Repr

/-- The text in which every element is shown as `display` says. -/
def Segments.text (display : TextElement → List Char) : Segments → List Char
  | last plain => plain
  | cut plain element rest => plain ++ display element ++ rest.text display

/--
Cuts a text at its text elements, from left to right.  The characters since the last element
are given in reverse.
-/
def segmentsFrom (plain : List Char) (text : List Char) : Segments :=
  match _ : textElement? text with
  | some (element, rest) => .cut plain.reverse element (segmentsFrom [] rest)
  | none =>
      match text with
      | [] => .last plain.reverse
      | c :: rest => segmentsFrom (c :: plain) rest
termination_by text.length
decreasing_by
  · exact length_of_textElement? ‹_›
  · exact Nat.lt_succ_self _

def segments (text : List Char) : Segments := segmentsFrom [] text

/-- An element that shows a rule, put into a link to the row of the rule. -/
def TextElement.linked (fileName : String) (isRule : String → Bool) (element : TextElement) :
    List Char :=
  let name := String.ofList element.content
  if isRule name then
    "<a xlink:href=\"#".toList ++ (anchor fileName name).toList ++ "\">".toList ++
      element.written ++ "</a>".toList
  else element.written

/-- The page with its links. -/
def addLinks (fileName : String) (isRule : String → Bool) (page : String) : String :=
  String.ofList ((segments page.toList).text (TextElement.linked fileName isRule))

end Page

end Railroad
