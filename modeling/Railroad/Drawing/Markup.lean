/-!
# Markup

Elements with attributes and children, written with every child and every closing tag on lines
of their own.  Attributes are written in the order in which they are given.
-/

namespace Railroad

inductive Markup where
  | element (name : String) (attributes : List (String × String)) (children : List Markup)
  | text (content : String)
  deriving Repr

namespace Markup

def escapeTextChar : Char → List Char
  | '&' => "&amp;".toList
  | '<' => "&lt;".toList
  | '>' => "&gt;".toList
  | c => [c]

def escapeAttributeChar : Char → List Char
  | '&' => "&amp;".toList
  | '<' => "&lt;".toList
  | '>' => "&gt;".toList
  | '"' => "&quot;".toList
  | '\'' => "&apos;".toList
  | c => [c]

def escapeText (content : String) : String := String.ofList (content.toList.flatMap escapeTextChar)

def escapeAttribute (value : String) : String :=
  String.ofList (value.toList.flatMap escapeAttributeChar)

def attributeText (given : String × String) : String :=
  " " ++ given.1 ++ "=\"" ++ escapeAttribute given.2 ++ "\""

mutual

/-- The written form. -/
def render : Markup → String
  | text content => escapeText content
  | element name attributes [] => "<" ++ name ++ String.join (attributes.map attributeText) ++ "/>"
  | element name attributes (child :: rest) =>
      "<" ++ name ++ String.join (attributes.map attributeText) ++ ">" ++
        renderLines (child :: rest) ++ "\n</" ++ name ++ ">"

/-- Every child after a line break. -/
def renderLines : List Markup → String
  | [] => ""
  | child :: rest => "\n" ++ child.render ++ renderLines rest

end

end Markup

end Railroad
