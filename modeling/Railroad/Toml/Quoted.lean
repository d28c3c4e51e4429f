/-!
# TOML strings

Basic strings know escapes, literal strings know none, and both may run over several lines
between threefold quotes.  Every reader here starts behind the opening quotes and answers with
the content and the text behind the closing ones.
-/

namespace Railroad.Toml

/-- Characters that may stand in strings and comments as they are. -/
def isPlain (c : Char) : Bool := c == '\t' || (0x20 ≤ c.toNat && c.toNat != 0x7F)

def isSpace (c : Char) : Bool := c == ' ' || c == '\t'

def digitValue? (base : Nat) (c : Char) : Option Nat :=
  let value? :=
    if '0' ≤ c && c ≤ '9' then some (c.toNat - '0'.toNat)
    else if 'a' ≤ c && c ≤ 'f' then some (c.toNat - 'a'.toNat + 10)
    else if 'A' ≤ c && c ≤ 'F' then some (c.toNat - 'A'.toNat + 10)
    else none
  value?.filter (· < base)

/-- The number that digits of this base stand for. -/
def digitsValue? (base : Nat) (digits : List Char) : Option Nat :=
  digits.foldlM (fun value c => (digitValue? base c).map (value * base + ·)) 0

/-- The character with the code point that the first `count` characters spell. -/
def codePoint? (count : Nat) (text : List Char) : Option (Char × List Char) :=
  let digits := text.take count
  if digits.length = count then
    match digitsValue? 16 digits with
    | some value =>
        if value.isValidChar then some (Char.ofNat value, text.drop count) else none
    | none => none
  else none

/-- The character that stands behind a backslash, and the text after it. -/
def escape? : List Char → Option (Char × List Char)
  | 'b' :: rest => some ('\x08', rest)
  | 't' :: rest => some ('\t', rest)
  | 'n' :: rest => some ('\n', rest)
  | 'f' :: rest => some ('\x0c', rest)
  | 'r' :: rest => some ('\r', rest)
  | 'e' :: rest => some ('\x1b', rest)
  | '"' :: rest => some ('"', rest)
  | '\\' :: rest => some ('\\', rest)
  | 'x' :: rest => codePoint? 2 rest
  | 'u' :: rest => codePoint? 4 rest
  | 'U' :: rest => codePoint? 8 rest
  | _ => none

theorem length_of_codePoint? {count : Nat} {text rest : List Char} {c : Char}
    (found : codePoint? count text = some (c, rest)) : rest.length ≤ text.length := by
  unfold codePoint? at found
  dsimp only at found
  split at found
  · split at found
    · split at found
      · cases found
        simp
      · cases found
    · cases found
  · cases found

theorem length_of_escape? {text rest : List Char} {c : Char}
    (found : escape? text = some (c, rest)) : rest.length < text.length := by
  unfold escape? at found
  split at found
  all_goals
    first
    | (cases found; exact Nat.lt_succ_self _)
    | exact Nat.lt_succ_of_le (length_of_codePoint? found)
    | cases found

/-- The text behind a line break. -/
def lineBreak? : List Char → Option (List Char)
  | '\n' :: rest | '\r' :: '\n' :: rest => some rest
  | _ => none

def dropLineBreak (text : List Char) : List Char := (lineBreak? text).getD text

/-- What a reader found: its content and the text behind it. -/
abbrev Found := Option (List Char × List Char)

def Found.after (c : Char) (found : Found) : Found :=
  found.map fun (content, rest) => (c :: content, rest)

def basicBody (text : List Char) : Found :=
  match text with
  | [] => none
  | '"' :: rest => some ([], rest)
  | '\\' :: rest =>
      match _ : escape? rest with
      | some (c, tail) => (basicBody tail).after c
      | none => none
  | c :: rest => if isPlain c then (basicBody rest).after c else none
termination_by text.length
decreasing_by
  · exact Nat.lt_succ_of_lt (length_of_escape? ‹_›)
  · exact Nat.lt_succ_self _

def literalBody : List Char → Found
  | [] => none
  | '\'' :: rest => some ([], rest)
  | c :: rest => if isPlain c then (literalBody rest).after c else none

/-- At the closing quotes, up to two more quotes belong to the content. -/
def closingQuotes (quote : Char) (text : List Char) : Found :=
  match text with
  | first :: second :: rest =>
      if first = quote then
        if second = quote then some ([quote, quote], rest) else some ([quote], second :: rest)
      else some ([], text)
  | [first] => if first = quote then some ([quote], []) else some ([], text)
  | [] => some ([], [])

/-- Whether a line break follows behind spaces. -/
def continuesLine (text : List Char) : Bool := (lineBreak? (text.dropWhile isSpace)).isSome

/-- Passes over spaces and line breaks. -/
def dropBreaks : List Char → List Char
  | [] => []
  | '\n' :: rest => dropBreaks rest
  | '\r' :: '\n' :: rest => dropBreaks rest
  | c :: rest => if isSpace c then dropBreaks rest else c :: rest

theorem length_dropBreaks_le (text : List Char) : (dropBreaks text).length ≤ text.length := by
  fun_induction dropBreaks text with
  | case1 => exact Nat.le_refl _
  | case2 rest ih => exact Nat.le_succ_of_le ih
  | case3 rest ih => exact Nat.le_succ_of_le (Nat.le_succ_of_le ih)
  | case4 c rest _ _ space ih => exact Nat.le_succ_of_le ih
  | case5 => exact Nat.le_refl _

def multilineBasicBody (text : List Char) : Found :=
  match text with
  | [] => none
  | '"' :: '"' :: '"' :: rest => closingQuotes '"' rest
  | '\\' :: rest =>
      if continuesLine rest then
        multilineBasicBody (dropBreaks rest)
      else
        match _ : escape? rest with
        | some (c, tail) => (multilineBasicBody tail).after c
        | none => none
  | c :: rest =>
      if isPlain c || (lineBreak? (c :: rest)).isSome then (multilineBasicBody rest).after c
      else none
termination_by text.length
decreasing_by
  · exact Nat.lt_succ_of_le (length_dropBreaks_le rest)
  · exact Nat.lt_succ_of_lt (length_of_escape? ‹_›)
  · exact Nat.lt_succ_self _

def multilineLiteralBody : List Char → Found
  | [] => none
  | '\'' :: '\'' :: '\'' :: rest => closingQuotes '\'' rest
  | c :: rest =>
      if isPlain c || (lineBreak? (c :: rest)).isSome then (multilineLiteralBody rest).after c
      else none

/-- A string on one line. -/
def lineString? : List Char → Found
  | '"' :: rest => basicBody rest
  | '\'' :: rest => literalBody rest
  | _ => none

/-- A string of any of the four kinds. -/
def string? : List Char → Found
  | '"' :: '"' :: '"' :: rest => multilineBasicBody (dropLineBreak rest)
  | '\'' :: '\'' :: '\'' :: rest => multilineLiteralBody (dropLineBreak rest)
  | text => lineString? text

end Railroad.Toml
