/-!
# Anchors

Texts are escaped for the content and the attributes of a page.  A rule is known on its page
under an anchor made of the name of the page and its own.
-/

namespace Railroad

namespace Page

def escapeChar : Char → List Char
  | '&' => "&amp;".toList
  | '<' => "&lt;".toList
  | '>' => "&gt;".toList
  | '"' => "&quot;".toList
  | c => [c]

def escapeChars (text : List Char) : List Char := text.flatMap escapeChar

/-- The form in which a text stands in a page. -/
def escape (text : String) : String := String.ofList (escapeChars text.toList)

/-- The anchor of a rule, escaped. -/
def anchor (fileName rule : String) : String := escape (fileName ++ "_" ++ rule)

end Page

end Railroad
