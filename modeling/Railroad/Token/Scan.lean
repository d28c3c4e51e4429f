import Railroad.Source.Diagnostic
import Railroad.Text.Classes
import Railroad.Token.Basic

/-!
# Scanning one token

`scan` looks at a nonempty text and says which token it begins with and how many characters
beyond the first belong to it, or which fault keeps a token from being read.  Counting the
characters beyond the first makes every scanned piece nonempty.
-/

namespace Railroad

namespace Scan

/-- What stands at the beginning of a text. -/
inductive Result where
  /-- A token made of the first character and `more` others. -/
  | token (token : Token) (more : Nat)
  /-- A fault seen over the first character and `more` others. -/
  | fault (code : Code) (more : Nat)
  deriving Repr

/-- How far a quoted form reaches, and whether its closing delimiter was found there. -/
structure Reach where
  length : Nat
  closed : Bool
  deriving DecidableEq, Repr

def Reach.after (reach : Reach) (count : Nat) : Reach := ⟨reach.length + count, reach.closed⟩

/--
Reads up to the closing delimiter, which is counted.  A backslash takes the next character with
it; a barred character, or a backslash at the very end, leaves the form open.
-/
def reach (delimiter : Char) (barred : List Char) : List Char → Reach
  | [] => ⟨0, false⟩
  | c :: rest =>
      if c = '\\' then
        match rest with
        | [] => ⟨0, false⟩
        | _ :: tail => (reach delimiter barred tail).after 2
      else if c = delimiter then ⟨1, true⟩
      else if c ∈ barred then ⟨0, false⟩
      else (reach delimiter barred rest).after 1

theorem reach_length_le (delimiter : Char) (barred text : List Char) :
    (reach delimiter barred text).length ≤ text.length := by
  fun_induction reach delimiter barred text with
  | case1 => exact Nat.le_refl _
  | case2 => exact Nat.zero_le _
  | case3 escaped tail ih => exact Nat.add_le_add_right ih 2
  | case4 rest notEscape => exact Nat.le_add_left 1 rest.length
  | case5 c rest notEscape notDelimiter isBarred => exact Nat.zero_le _
  | case6 c rest notEscape notDelimiter notBarred ih => exact Nat.add_le_add_right ih 1

/-- Number of characters up to and including the end of a block comment. -/
def closeComment : List Char → Option Nat
  | [] => none
  | '*' :: '/' :: _ => some 2
  | _ :: rest => (closeComment rest).map (· + 1)

def isLineBreak (c : Char) : Bool := c == '\n' || c == '\r'

/-- The rest of a block comment whose opening sign is over. -/
def scanBlockComment (opening : Nat) (text : List Char) : Result :=
  match closeComment text with
  | some length => .token .blockComment (opening + length)
  | none => .fault .openComment opening

/-- The rest of a documentation comment whose opening sign is over. -/
def scanDocComment (text : List Char) : Result :=
  match closeComment text with
  | some length => .token (.docComment (String.ofList (text.take (length - 2)))) (2 + length)
  | none => .fault .openComment 2

/-- A comment, after its first slash.  Two stars and no slash open a documentation comment. -/
def scanComment : List Char → Result
  | '/' :: rest =>
      let body := rest.takeWhile fun c => !isLineBreak c
      .token (.lineComment (String.ofList body)) (1 + body.length)
  | '*' :: '*' :: rest =>
      if rest.head? = some '/' then scanBlockComment 1 ('*' :: rest) else scanDocComment rest
  | '*' :: rest => scanBlockComment 1 rest
  | _ => .fault .strayCharacter 0

/--
How many characters beyond the first belong to the same piece of an action: an escaped
character, a string closed on its line, a comment, or a single character.  There is no answer
for a block comment that never ends.
-/
def pieceMore (c : Char) (rest : List Char) : Option Nat :=
  if c = '\\' then some (min 1 rest.length)
  else if c = '\'' ∨ c = '"' then
    let quoted := reach c ['\n'] rest
    some (if quoted.closed then quoted.length else 0)
  else if c = '/' then
    match rest with
    | '/' :: body => some (1 + (body.takeWhile fun d => d != '\n').length)
    | '*' :: body => (closeComment body).map (1 + ·)
    | _ => some 0
  else some 0

/--
Number of characters up to and including the brace that closes the block, with `depth` inner
braces open.
-/
def blockLength (depth : Nat) : List Char → Option Nat
  | [] => none
  | c :: rest =>
      if c = '}' then
        match depth with
        | 0 => some 1
        | outer + 1 => (blockLength outer rest).map (· + 1)
      else
        match pieceMore c rest with
        | none => none
        | some more =>
            (blockLength (if c = '{' then depth + 1 else depth) (rest.drop more)).map
              (· + (more + 1))
termination_by text => text.length
decreasing_by
  all_goals simp only [List.length_cons, List.length_drop]; omega

/-- The characters that continue a word. -/
def isWordCharacter (c : Char) : Bool := Text.isAlphabetic c || Text.isNumeric c || c == '_'

/-- A word is a keyword, a token name or a rule name. -/
def wordToken (word : String) : Token :=
  match Keyword.ofText? word with
  | some keyword => .keyword keyword
  | none => if Text.startsUppercase word then .tokenName word else .ruleName word

/-- The mark that begins with `c`, the longer one first, and its further characters. -/
def mark? (c : Char) (next : Option Char) : Option (Mark × Nat) :=
  if c = ':' then some (if next = some ':' then (.doubleColon, 1) else (.colon, 0))
  else if c = '+' then some (if next = some '=' then (.plusEquals, 1) else (.plus, 0))
  else if c = '.' then some (if next = some '.' then (.doubleDot, 1) else (.dot, 0))
  else if c = '-' then (if next = some '>' then some (.arrow, 1) else none)
  else if c = ';' then some (.semicolon, 0)
  else if c = '|' then some (.bar, 0)
  else if c = '(' then some (.openParen, 0)
  else if c = ')' then some (.closeParen, 0)
  else if c = '?' then some (.question, 0)
  else if c = '*' then some (.star, 0)
  else if c = '=' then some (.equals, 0)
  else if c = '~' then some (.tilde, 0)
  else if c = ',' then some (.comma, 0)
  else if c = '<' then some (.less, 0)
  else if c = '>' then some (.greater, 0)
  else if c = '#' then some (.hash, 0)
  else if c = '@' then some (.atSign, 0)
  else none

end Scan

open Scan in
/-- The token, or the fault, at the beginning of the text `c :: rest`. -/
def scan (c : Char) (rest : List Char) : Result :=
  if c = '/' then scanComment rest
  else if c = '\'' then
    let body := reach '\'' ['\n', '\r'] rest
    if body.closed then .token (.literal (String.ofList (c :: rest.take body.length))) body.length
    else .fault .openString body.length
  else if c = '[' then
    let body := reach ']' [] rest
    if body.closed then .token (.charSet (String.ofList (c :: rest.take body.length))) body.length
    else .fault .openSet body.length
  else if c = '{' then
    match blockLength 0 rest with
    | some length => .token (.action (String.ofList (c :: rest.take length))) length
    | none => .fault .openAction 0
  else
    match mark? c rest.head? with
    | some (mark, more) => .token (.mark mark) more
    | none =>
        if Text.isAlphabetic c then
          let run := rest.takeWhile isWordCharacter
          .token (wordToken (String.ofList (c :: run))) run.length
        else if c.isDigit then
          let run := rest.takeWhile Char.isDigit
          .token (.integer (String.ofList (c :: run))) run.length
        else if c = '\n' then .token .lineFeed 0
        else if Text.isBlank c then
          .token .blanks (rest.takeWhile fun d => Text.isBlank d && d != '\n').length
        else .fault .strayCharacter 0

end Railroad
