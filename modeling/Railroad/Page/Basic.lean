import Railroad.Page.Links

/-!
# Pages

A page is a table with one entry per rule.  Its title and its rows are put into the slots of a
template, and its links are added last.
-/

namespace Railroad

/-- What a page says about one rule. -/
inductive Entry where
  /-- The rule with its drawing and, where there is one, its description. -/
  | drawn (rule svg : String) (description : Option String)
  /-- The rule with the reason why it has no drawing. -/
  | unavailable (rule reason : String)
  deriving DecidableEq, Repr

namespace Entry

def rule : Entry → String
  | drawn rule _ _ | unavailable rule _ => rule

/-- The cell that carries the anchor of the rule. -/
def nameCell (fileName rule : String) : String :=
  "<td id=\"" ++ Page.anchor fileName rule ++ "\"><h4>" ++ Page.escape rule ++ "</h4></td>"

/-- Line feeds become line breaks of the page. -/
def breakLines (text : String) : String :=
  String.ofList (text.toList.flatMap fun c => if c = '\n' then "<br>".toList else [c])

def descriptionRow (description : String) : String :=
  "<tr class=\"border-notop\"><td></td><td>" ++ breakLines (Page.escape description) ++
    "</td></tr>\n"

/-- The rows of an entry. -/
def text (fileName : String) : Entry → String
  | drawn rule svg description =>
      "<tr>" ++ nameCell fileName rule ++ "<td>" ++ svg ++ "</td></tr>\n" ++
        description.elim "" descriptionRow
  | unavailable rule reason =>
      "<tr class=\"render-error\">" ++ nameCell fileName rule ++ "<td>diagram unavailable: " ++
        Page.escape reason ++ "</td></tr>\n"

end Entry

structure Page where
  fileName : String
  title : String
  crossLinks : Bool
  entries : List Entry

namespace Page

/-- A page without entries. -/
def titled (fileName title : String) : Page := ⟨fileName, title, true, []⟩

def withCrossLinks (page : Page) (crossLinks : Bool) : Page := { page with crossLinks }

def add (page : Page) (entry : Entry) : Page := { page with entries := page.entries ++ [entry] }

/-- The page with an empty slot for the rows and one for each showing of the title. -/
def template : String := "<!DOCTYPE html>
<html lang=\"en\">
<head>
<meta charset=\"utf-8\">
<title>$\x7btitle\x7d</title>
<style>
body \x7b font-family: sans-serif; margin: 2em; color: #1b2733; \x7d
h1 \x7b font-size: 1.6em; \x7d
table \x7b border-collapse: collapse; \x7d
td \x7b padding: 0.5em 1em; border-top: 1px solid #d5dde6; vertical-align: top; \x7d
tr.border-notop td \x7b border-top: none; color: #3d4d5d; \x7d
tr.render-error td \x7b color: #a4262c; \x7d
h4 \x7b margin: 0.3em 0; font-family: monospace; \x7d
</style>
</head>
<body>
<h1>$\x7btitle\x7d</h1>
<table>
$\x7brows\x7d
</table>
</body>
</html>
"

/-- Fills every slot of this name that the text has now. -/
def fill (slot value : String) (text : List Char) : List Char :=
  Text.replaceAll '$' ('\x7b' :: slot.toList ++ ['\x7d']) value.toList text

def rows (page : Page) : String := String.join (page.entries.map (Entry.text page.fileName))

/-- The page without links: the title is filled in before the rows. -/
def unlinked (page : Page) : String :=
  String.ofList (fill "rows" page.rows (fill "title" (escape page.title) template.toList))

/-- The finished page. -/
def text (page : Page) (isRule : String → Bool) : String :=
  if page.crossLinks then addLinks page.fileName isRule page.unlinked else page.unlinked

end Page

end Railroad
