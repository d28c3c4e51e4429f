import Railroad.Text.Classes
import Railroad.Toml.Basic
import Railroad.Toml.Quoted

/-!
# TOML scalars

The values that are written without quotes: numbers, truth values, dates and times.  Each is
read from the whole of its text.
-/

namespace Railroad.Toml

/-- The digits without the underscores between them. -/
def ungrouped? (base : Nat) : List Char → Option (List Char)
  | [] => none
  | [c] => if (digitValue? base c).isSome then some [c] else none
  | c :: next :: rest =>
      if (digitValue? base c).isSome then
        if next = '_' then (ungrouped? base rest).map (c :: ·)
        else (ungrouped? base (next :: rest)).map (c :: ·)
      else none

/-- Whether the sign in front is a minus, and the text behind the sign. -/
def unsigned : List Char → Bool × List Char
  | '+' :: rest => (false, rest)
  | '-' :: rest => (true, rest)
  | text => (false, text)

/-- Decimal digits; no zero stands in front of others. -/
def wholeDigits? (text : List Char) : Option (List Char) :=
  (ungrouped? 10 text).filter fun digits => digits.head? != some '0' || digits.length == 1

def prefixed? (base : Nat) (text : List Char) : Option Int :=
  ((ungrouped? base text).bind (digitsValue? base)).map Int.ofNat

/-- An integer in decimal, or without a sign in another base. -/
def integer? (text : List Char) : Option Int :=
  match text with
  | '0' :: 'x' :: rest => prefixed? 16 rest
  | '0' :: 'o' :: rest => prefixed? 8 rest
  | '0' :: 'b' :: rest => prefixed? 2 rest
  | _ =>
      let (negative, digits) := unsigned text
      ((wholeDigits? digits).bind (digitsValue? 10)).map fun value =>
        if negative then -(value : Int) else value

/-- Integers are kept within 128 bits. -/
def isKept (number : Int) : Bool := decide (-(Int.pow 2 127) ≤ number) && decide (number < Int.pow 2 128)

/--
The float nearest to `digits * 10 ^ exponent`.  Magnitudes far outside of the range of floats
are decided by the number of digits alone.
-/
def nearestFloat (digits : List Char) (exponent : Int) : Float :=
  let value := (digitsValue? 10 digits).getD 0
  let size := (Nat.toDigits 10 value).length + exponent
  if value = 0 ∨ size < -400 then 0
  else if 400 < size then 1 / 0
  else Float.ofScientific value (decide (exponent < 0)) exponent.natAbs

/-- The exponent of a float, behind its letter. -/
def exponent? (text : List Char) : Option Int :=
  let (negative, digits) := unsigned text
  ((ungrouped? 10 digits).bind (digitsValue? 10)).map fun value =>
    if negative then -(value : Int) else value

/-- A float with a fraction, an exponent or both. -/
def decimalFloat? (text : List Char) : Option Float := do
  let isLetter := fun c => c == 'e' || c == 'E'
  let mantissa := text.takeWhile fun c => !isLetter c
  let power ← match text.dropWhile fun c => !isLetter c with
    | [] => some none
    | _ :: rest => (exponent? rest).map some
  let (whole, fraction) ← match Text.splitOnce '.' mantissa with
    | some (whole, fraction) =>
        (wholeDigits? whole).bind fun whole => (ungrouped? 10 fraction).map (whole, ·)
    | none => if power.isSome then (wholeDigits? mantissa).map (·, []) else none
  return nearestFloat (whole ++ fraction) (power.getD 0 - fraction.length)

/-- A float, unless it is written with digits and lies beyond the largest one. -/
def float? (text : List Char) : Option Value :=
  let (negative, size) := unsigned text
  let signed := fun (magnitude : Float) => Value.float (if negative then -magnitude else magnitude)
  if size = "inf".toList then some (signed (1 / 0))
  else if size = "nan".toList then some (signed (0 / 0))
  else
    (decimalFloat? size).map fun magnitude =>
      if magnitude.isFinite then signed magnitude else .excessive

def boolean? (text : List Char) : Option Bool :=
  if text = "true".toList then some true
  else if text = "false".toList then some false
  else none

/-- A number of exactly `count` digits within bounds, and the text behind it. -/
def field? (count low high : Nat) (text : List Char) : Option (Nat × List Char) :=
  let digits := text.take count
  if digits.length = count then
    ((digitsValue? 10 digits).filter fun value => low ≤ value && value ≤ high).map
      (·, text.drop count)
  else none

def daysOf (year month : Nat) : Nat :=
  if month = 2 then
    if year % 4 = 0 ∧ (year % 100 ≠ 0 ∨ year % 400 = 0) then 29 else 28
  else if month = 4 ∨ month = 6 ∨ month = 9 ∨ month = 11 then 30
  else 31

def sign? (expected : Char) : List Char → Option (List Char)
  | c :: rest => if c = expected then some rest else none
  | [] => none

/-- The text behind a date. -/
def date? (text : List Char) : Option (List Char) := do
  let (year, text) ← field? 4 0 9999 text
  let (month, text) ← field? 2 1 12 (← sign? '-' text)
  let (_, text) ← field? 2 1 (daysOf year month) (← sign? '-' text)
  return text

/-- The text behind the fraction of a second. -/
def secondFraction? (text : List Char) : Option (List Char) :=
  match text with
  | '.' :: c :: rest => if c.isDigit then some (rest.dropWhile Char.isDigit) else none
  | '.' :: [] => none
  | _ => some text

/-- The text behind a time of the day, whose seconds may be left out. -/
def time? (text : List Char) : Option (List Char) := do
  let (_, text) ← field? 2 0 23 text
  let (_, text) ← field? 2 0 59 (← sign? ':' text)
  match text with
  | ':' :: rest => do
      let (_, text) ← field? 2 0 60 rest
      secondFraction? text
  | _ => return text

/-- Whether the text is nothing or the distance of a time zone. -/
def isZone (text : List Char) : Bool :=
  match text with
  | [] | ['Z'] | ['z'] => true
  | c :: rest =>
      (c == '+' || c == '-') &&
        match field? 2 0 23 rest with
        | some (_, ':' :: minutes) => (field? 2 0 59 minutes).any fun (_, rest) => rest.isEmpty
        | _ => false

def isMoment (text : List Char) : Bool :=
  match date? text with
  | some [] => true
  | some (c :: rest) =>
      (c == 'T' || c == 't' || c == ' ') && (time? rest).any isZone
  | none => time? text == some []

/-- The value with this text. -/
def scalar? (text : List Char) : Option Value :=
  match boolean? text with
  | some flag => some (.boolean flag)
  | none =>
      match integer? text with
      | some number => some (if isKept number then .integer number else .excessive)
      | none =>
          match float? text with
          | some number => some number
          | none => if isMoment text then some .moment else none

end Railroad.Toml
