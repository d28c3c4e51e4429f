/-!
# Labels

A label stands between single quotes in a diagram specification.  Escaping doubles a backslash
before `u`, which would otherwise be read back as a code point escape, and puts a backslash
before a quote.  A quoted literal of the grammar keeps the escapes of its body.
-/

namespace Railroad

namespace Label

/-- Doubles every backslash that stands before `u`. -/
def guardCodePoints : List Char → List Char
  | [] => []
  | '\\' :: 'u' :: rest => '\\' :: '\\' :: 'u' :: guardCodePoints rest
  | c :: rest => c :: guardCodePoints rest

/-- Puts a backslash before every quote. -/
def guardQuotes : List Char → List Char
  | [] => []
  | c :: rest => if c = '\'' then '\\' :: '\'' :: guardQuotes rest else c :: guardQuotes rest

def escapeChars (text : List Char) : List Char := guardQuotes (guardCodePoints text)

/-- The text between a leading and a closing quote, or the whole text without them. -/
def literalBody (literal : List Char) : List Char :=
  match literal with
  | '\'' :: rest => if rest.getLast? = some '\'' then rest.dropLast else literal
  | _ => literal

def escapeLiteralChars (literal : List Char) : List Char :=
  ['\\', '\''] ++ guardCodePoints (literalBody literal) ++ ['\\', '\'']

/-- Undoes an escaped backslash or quote; any other backslash stays as it is. -/
def unescapeChars : List Char → List Char
  | [] => []
  | [c] => [c]
  | c :: next :: rest =>
      if c = '\\' then
        if next = '\\' ∨ next = '\'' then next :: unescapeChars rest
        else '\\' :: next :: unescapeChars rest
      else c :: unescapeChars (next :: rest)

/-- The label that shows `text`. -/
def escape (text : String) : String := String.ofList (escapeChars text.toList)

/-- The label that shows a quoted literal. -/
def escapeLiteral (literal : String) : String := String.ofList (escapeLiteralChars literal.toList)

/-- The text that a label shows. -/
def unescape (label : String) : String := String.ofList (unescapeChars label.toList)

end Label

end Railroad
