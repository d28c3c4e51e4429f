import Railroad.Text.Ranges

/-!
# Character classes

The classes of characters that the scanner and the trimming rules ask for.  Characters below
128 are decided directly; all others are looked up in the property tables.
-/

namespace Railroad.Text

/-- The Unicode property Alphabetic. -/
def isAlphabetic (c : Char) : Bool :=
  if c.toNat < 128 then c.isAlpha else covers alphabeticRanges c.toNat

/-- The general categories of numbers. -/
def isNumeric (c : Char) : Bool :=
  if c.toNat < 128 then c.isDigit else covers numericRanges c.toNat

/-- The Unicode property Uppercase. -/
def isUppercase (c : Char) : Bool :=
  if c.toNat < 128 then c.isUpper
  else covers uppercaseRanges c.toNat || coversAlternate uppercaseAlternateRanges c.toNat

/-- The Unicode property White_Space. -/
def isBlank (c : Char) : Bool := covers blankRanges c.toNat

/-- Removes blank characters from the front. -/
def trimStart (cs : List Char) : List Char := cs.dropWhile isBlank

/-- Removes blank characters from both ends. -/
def trim (cs : List Char) : List Char := (trimStart (trimStart cs).reverse).reverse

/-- Whether the name begins with an uppercase letter. -/
def startsUppercase (name : String) : Bool :=
  match name.toList with
  | [] => false
  | c :: _ => isUppercase c

/-- The texts before and after the first occurrence of a character. -/
def splitOnce (separator : Char) : List Char → Option (List Char × List Char)
  | [] => none
  | c :: rest =>
      if c = separator then some ([], rest)
      else (splitOnce separator rest).map fun (before, after) => (c :: before, after)

theorem isBlank_lineFeed : isBlank '\n' = true := by decide

theorem isBlank_space : isBlank ' ' = true := by decide

end Railroad.Text
