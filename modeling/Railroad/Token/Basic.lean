import Railroad.Source.Span

/-!
# Tokens of the grammar language

Words of the language are keywords or names, everything else is a mark, a quoted form, a number
or trivia.  Quoted forms (literals, character sets, actions) keep their source text with its
delimiters, so that later stages can reproduce it.
-/

namespace Railroad

inductive Keyword where
  | grammar
  | lexer
  | parser
  | fragment
  | options
  | tokens
  | channels
  | importing
  | mode
  | returns
  | locals
  | throws
  | catching
  | finishing
  | publicAccess
  | privateAccess
  | protectedAccess
  deriving DecidableEq, Repr

namespace Keyword

def text : Keyword → String
  | grammar => "grammar"
  | lexer => "lexer"
  | parser => "parser"
  | fragment => "fragment"
  | options => "options"
  | tokens => "tokens"
  | channels => "channels"
  | importing => "import"
  | mode => "mode"
  | returns => "returns"
  | locals => "locals"
  | throws => "throws"
  | catching => "catch"
  | finishing => "finally"
  | publicAccess => "public"
  | privateAccess => "private"
  | protectedAccess => "protected"

def all : List Keyword :=
  [grammar, lexer, parser, fragment, options, tokens, channels, importing, mode, returns, locals,
    throws, catching, finishing, publicAccess, privateAccess, protectedAccess]

/-- The keyword spelled by a word, if it is one. -/
def ofText? (word : String) : Option Keyword := all.find? fun keyword => keyword.text == word

theorem ofText?_text (keyword : Keyword) : ofText? keyword.text = some keyword := by
  cases keyword <;> decide

theorem text_eq_of_ofText? {word : String} {keyword : Keyword} (found : ofText? word = some keyword) :
    keyword.text = word := by
  have spelled := List.find?_some found
  exact eq_of_beq spelled

end Keyword

/-- Punctuation. -/
inductive Mark where
  | colon
  | doubleColon
  | semicolon
  | bar
  | openParen
  | closeParen
  | question
  | star
  | plus
  | plusEquals
  | equals
  | tilde
  | doubleDot
  | dot
  | arrow
  | comma
  | less
  | greater
  | hash
  | atSign
  deriving DecidableEq, Repr

def Mark.text : Mark → String
  | colon => ":"
  | doubleColon => "::"
  | semicolon => ";"
  | bar => "|"
  | openParen => "("
  | closeParen => ")"
  | question => "?"
  | star => "*"
  | plus => "+"
  | plusEquals => "+="
  | equals => "="
  | tilde => "~"
  | doubleDot => ".."
  | dot => "."
  | arrow => "->"
  | comma => ","
  | less => "<"
  | greater => ">"
  | hash => "#"
  | atSign => "@"

/-- A token.  Comments hold the text between their delimiters, where it is kept at all. -/
inductive Token where
  | keyword (word : Keyword)
  | mark (sign : Mark)
  /-- A name that begins with an uppercase letter. -/
  | tokenName (text : String)
  /-- Any other name. -/
  | ruleName (text : String)
  | literal (text : String)
  | charSet (text : String)
  | action (text : String)
  | integer (text : String)
  | docComment (body : String)
  | blockComment
  | lineComment (body : String)
  | blanks
  | lineFeed
  deriving DecidableEq, Repr

namespace Token

/--
The token as it is printed in messages.  For names, quoted forms, numbers and marks this is the
source text; blank runs and comments without a kept body are printed as a sign of their kind.
-/
def text : Token → String
  | keyword word => word.text
  | mark sign => sign.text
  | tokenName text | ruleName text | literal text | charSet text | action text | integer text => text
  | docComment body => "/**" ++ body ++ "*/"
  | blockComment => "/* */"
  | lineComment body => "//" ++ body
  | blanks => " "
  | lineFeed => "\\n"

/-- Tokens that the grammar reader skips. -/
def isTrivia : Token → Bool
  | docComment _ | blockComment | lineComment _ | blanks | lineFeed => true
  | _ => false

end Token

/-- A token and the part of the source it was read from. -/
structure Lexeme where
  token : Token
  span : Span
  deriving DecidableEq, Repr

/-- The lexemes that carry meaning for the grammar reader. -/
def significant (lexemes : List Lexeme) : List Lexeme :=
  lexemes.filter fun lexeme => !lexeme.token.isTrivia

theorem mem_significant {lexeme : Lexeme} {lexemes : List Lexeme} :
    lexeme ∈ significant lexemes ↔ lexeme ∈ lexemes ∧ ¬lexeme.token.isTrivia = true := by
  rw [significant, List.mem_filter, Bool.not_eq_true', Bool.not_eq_true]

theorem significant_append (front back : List Lexeme) :
    significant (front ++ back) = significant front ++ significant back := List.filter_append ..

end Railroad
