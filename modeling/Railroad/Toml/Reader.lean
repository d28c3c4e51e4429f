import Railroad.Text.Replace
import Railroad.Toml.Number

/-!
# TOML documents

A document is a sequence of lines with headers and entries.  Arrays and inline tables may run
over several lines.  Values stand only so deep in one another, and keys have only so many parts.
-/

namespace Railroad.Toml

/-- How deep values may stand in one another, and how many parts a key may have. -/
def deepest : Nat := 80

def skipSpaces (text : List Char) : List Char := text.dropWhile isSpace

/-- Passes over spaces, line breaks and comments. -/
def skipLines (inComment : Bool) : List Char → List Char
  | [] => []
  | '\n' :: rest => skipLines false rest
  | '\r' :: '\n' :: rest => skipLines false rest
  | c :: rest =>
      if inComment then if isPlain c then skipLines true rest else c :: rest
      else if isSpace c then skipLines false rest
      else if c = '#' then skipLines true rest
      else c :: rest

/-- The text behind the rest of a line that holds nothing more than a comment. -/
def lineEnd? (text : List Char) : Option (List Char) :=
  let rest := match skipSpaces text with
    | '#' :: comment => comment.dropWhile isPlain
    | rest => rest
  match rest with
  | [] => some []
  | _ => lineBreak? rest

def isBareKey (c : Char) : Bool := c.isAlphanum || c == '_' || c == '-'

def simpleKey? (text : List Char) : Option (String × List Char) :=
  match text.takeWhile isBareKey with
  | [] => (lineString? text).map fun (content, rest) => (String.ofList content, rest)
  | bare => some (String.ofList bare, text.dropWhile isBareKey)

/-- The tables that a key leads through, its last part and the text behind it. -/
def dottedKey? (text : List Char) : Option ((List String × String) × List Char) :=
  match simpleKey? text with
  | none => none
  | some (part, rest) =>
      match skipSpaces rest with
      | '.' :: dotted =>
          let next := skipSpaces dotted
          if next.length < text.length then
            (dottedKey? next).map fun ((path, last), rest) => ((part :: path, last), rest)
          else none
      | rest => some (([], part), rest)
termination_by text.length

/-- A key with no more parts than it may have. -/
def key? (text : List Char) : Option ((List String × String) × List Char) :=
  (dottedKey? text).filter fun ((path, _), _) => path.length < deepest

/--
The items between brackets or braces, separated by commas, the last of which may be followed by
one more.
-/
def items? {α : Type} (close : Char) (item? : List Char → Option (α × List Char))
    (text : List Char) : Option (List α × List Char) :=
  match skipLines false text with
  | [] => none
  | c :: rest =>
      if c = close then some ([], rest)
      else
        match item? (c :: rest) with
        | none => none
        | some (item, rest) =>
            match skipLines false rest with
            | ',' :: rest =>
                if rest.length < text.length then
                  (items? close item? rest).map fun (items, rest) => (item :: items, rest)
                else none
            | c :: rest => if c = close then some ([item], rest) else none
            | [] => none
termination_by text.length

def isScalarChar (c : Char) : Bool :=
  c.isAlphanum || c == '_' || c == '+' || c == '-' || c == '.' || c == ':'

/-- A value without quotes.  A date may be followed by a space and a time. -/
def scalarAt? (text : List Char) : Option (Value × List Char) :=
  let written := text.takeWhile isScalarChar
  let rest := text.dropWhile isScalarChar
  match date? written, rest with
  | some [], ' ' :: c :: more =>
      if c.isDigit then
        let time := (c :: more).takeWhile isScalarChar
        (scalar? (written ++ ' ' :: time)).map (·, (c :: more).dropWhile isScalarChar)
      else (scalar? written).map (·, rest)
  | _, _ => (scalar? written).map (·, rest)

/-- A key, the sign behind it and a value.  What `skip` passes over may stand around the sign. -/
def assignment? (skip : List Char → List Char)
    (value? : List Char → Option (Value × List Char)) (text : List Char) :
    Option ((List String × String × Value) × List Char) :=
  match key? text with
  | none => none
  | some ((path, last), rest) =>
      match skip rest with
      | '=' :: rest => (value? (skip rest)).map fun (value, rest) => ((path, last, value), rest)
      | _ => none

def defineAll : List (List String × String × Value) → Entries → Option Entries
  | [], entries => some entries
  | (path, last, value) :: rest, entries => (entries.define path last value).bind (defineAll rest)

/-- A value, with arrays and inline tables no deeper than `depth` in one another. -/
def value? : Nat → List Char → Option (Value × List Char)
  | _, '"' :: text => (string? ('"' :: text)).map fun (content, rest) =>
      (.text (String.ofList content), rest)
  | _, '\'' :: text => (string? ('\'' :: text)).map fun (content, rest) =>
      (.text (String.ofList content), rest)
  | depth + 1, '[' :: text =>
      (items? ']' (value? depth) text).map fun (items, rest) => (.array items, rest)
  | depth + 1, '\x7b' :: text =>
      match items? '\x7d' (assignment? (skipLines false) (value? depth)) text with
      | none => none
      | some (entries, rest) =>
          (defineAll entries []).map fun entries => (.table .inline entries, rest)
  | _, text => scalarAt? text

/-- What has been read: the whole table and the keys of the header that was read last. -/
structure Progress where
  root : Entries
  header : List String

/-- Reads one header or entry and the end of its line. -/
def line? (progress : Progress) (text : List Char) : Option (Progress × List Char) :=
  match text with
  | '[' :: '[' :: text => do
      let ((path, last), rest) ← key? (skipSpaces text)
      let rest ← lineEnd? (← "]]".toList.isPrefixOf? (skipSpaces rest))
      return (⟨← progress.root.openNext path last, path ++ [last]⟩, rest)
  | '[' :: text => do
      let ((path, last), rest) ← key? (skipSpaces text)
      let rest ← lineEnd? (← "]".toList.isPrefixOf? (skipSpaces rest))
      return (⟨← progress.root.openTable path last, path ++ [last]⟩, rest)
  | _ => do
      let ((path, last, value), rest) ← assignment? skipSpaces (value? deepest) text
      let root ← progress.root.inSection (Entries.define path last value) progress.header
      return (⟨root, progress.header⟩, ← lineEnd? rest)

def lines? (progress : Progress) (text : List Char) : Option Entries :=
  match skipLines false text with
  | [] => some progress.root
  | text' =>
      match line? progress text' with
      | none => none
      | some (progress, rest) =>
          if rest.length < text.length then lines? progress rest else none
termination_by text.length

/-- The table that a document holds, unless it is malformed. -/
def read? (document : String) : Option Entries :=
  match document.toList with
  | '\uFEFF' :: text => lines? ⟨[], []⟩ text
  | text => lines? ⟨[], []⟩ text

end Railroad.Toml
