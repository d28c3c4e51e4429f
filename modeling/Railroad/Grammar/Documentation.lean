import Railroad.Catalog
import Railroad.Text.Classes
import Railroad.Token.Basic

/-!
# Documentation comments

A documentation comment in front of a rule declaration documents that rule.  Access modifiers
may stand between the comment and the rule name, and the token after the name must be one that
can follow a name in a declaration.  A later comment for the same rule replaces an earlier one.
-/

namespace Railroad

namespace Documentation

/-- A line without its surrounding blanks and without one star of the gutter. -/
def cleanLine (line : List Char) : List Char :=
  match Text.trim line with
  | '*' :: rest => Text.trimStart rest
  | trimmed => trimmed

/-- The text of a comment without its gutter and surrounding blanks; line breaks are kept. -/
def clean (body : String) : String :=
  let lines := (body.toList.splitOn '\n').map cleanLine
  String.ofList (Text.trim (List.intercalate ['\n'] lines))

/-- Tokens that can follow the name in a rule declaration. -/
def startsRuleBody : Token → Bool
  | .mark .colon | .mark .atSign | .charSet _ => true
  | .keyword .returns | .keyword .locals | .keyword .throws | .keyword .options => true
  | _ => false

def isModifier : Token → Bool
  | .keyword .fragment | .keyword .publicAccess | .keyword .privateAccess
  | .keyword .protectedAccess => true
  | _ => false

/-- Trivia that may stand anywhere, documentation comments excepted. -/
def isPassedOver : Token → Bool
  | .blanks | .lineFeed | .blockComment | .lineComment _ => true
  | _ => false

/-- The rule whose declaration begins here. -/
def declaredRule? (tokens : List Token) : Option String :=
  match tokens.dropWhile isModifier with
  | .ruleName name :: next :: _ | .tokenName name :: next :: _ =>
      if startsRuleBody next then some name else none
  | _ => none

def collect (found : Catalog String String) : List Token → Catalog String String
  | [] => found
  | .docComment body :: rest =>
      match declaredRule? rest with
      | some name => collect (found.put name (clean body)) rest
      | none => collect found rest
  | _ :: rest => collect found rest

end Documentation

/-- The documentation of every documented rule. -/
def documentation (lexemes : List Lexeme) : Catalog String String :=
  Documentation.collect .empty
    ((lexemes.map Lexeme.token).filter fun token => !Documentation.isPassedOver token)

end Railroad
