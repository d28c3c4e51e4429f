/-!
# Shortest decimals

A binary fraction is written with the fewest decimal digits that read back as the same number,
and among those with the digits nearest to it.  The search runs over the decimal grids
`n * 10 ^ k` from coarse to fine and stops at the first grid with a point in the interval of
numbers that round to the fraction.  Numbers are written positionally, without an exponent and
without a trailing point.
-/

namespace Railroad

namespace Decimal

/--
The positive number `mantissa * 2 ^ exponent`.  The next number below is only half as far away
as the next one above when the mantissa is the lowest of its binade.
-/
structure Fraction where
  mantissa : Nat
  exponent : Int
  lowest : Bool
  deriving DecidableEq, Repr

/--
The point of the grid of step `10 ^ k` that stands for the fraction: the nearer one of its two
neighbours, if one of them reads back.  A point half way between them goes up.  The ends of the
rounding interval belong to it for an even mantissa.  All lengths are in quarters of the last
binary place, scaled to whole numbers.
-/
def gridPoint? (fraction : Fraction) (k : Int) : Option Nat :=
  let q := fraction.exponent - 2
  let step := Nat.pow 10 k.toNat * Nat.pow 2 (-q).toNat
  let scale := Nat.pow 2 q.toNat * Nat.pow 10 (-k).toNat
  let value := 4 * fraction.mantissa * scale
  let above := 2 * scale
  let below := if fraction.lowest then scale else 2 * scale
  let closed := fraction.mantissa % 2 == 0
  let down := value % step
  let up := step - down
  let downFits := decide (down < below) || (closed && down == below)
  let upFits := decide (up < above) || (closed && up == above)
  if downFits && !(upFits && decide (step ≤ 2 * down)) then some (value / step)
  else if upFits then some (value / step + 1)
  else none

/-- The first point found on the grids from `10 ^ k` down, and the exponent of its grid. -/
def shortestFrom (fraction : Fraction) (k : Int) : Nat → Nat × Int
  | 0 => (0, k)
  | count + 1 =>
      match gridPoint? fraction k with
      | some point => (point, k)
      | none => shortestFrom fraction (k - 1) count

/-- The number of digits in front of the decimal point. -/
def wholeDigits (fraction : Fraction) : Nat :=
  (Nat.toDigits 10
    (fraction.mantissa * Nat.pow 2 fraction.exponent.toNat /
      Nat.pow 2 (-fraction.exponent).toNat)).length

/--
No grid coarser than the first power of ten above the fraction has a point near it, and every
single-precision number has one on one of the ninety grids from there down.
-/
def shortest (fraction : Fraction) : Nat × Int :=
  shortestFrom fraction (wholeDigits fraction) 90

/-- The text of `point * 10 ^ k`. -/
def positional (point : Nat) (k : Int) : String :=
  let digits := Nat.toDigits 10 point
  if 0 ≤ k then String.ofList (digits ++ List.replicate k.toNat '0')
  else
    let places := (-k).toNat
    if places < digits.length then
      String.ofList (digits.take (digits.length - places)) ++ "." ++
        String.ofList (digits.drop (digits.length - places))
    else "0." ++ String.ofList (List.replicate (places - digits.length) '0' ++ digits)

/-- The parts of a single-precision number. -/
inductive Parts where
  | nan
  | infinite (negative : Bool)
  | zero (negative : Bool)
  | finite (negative : Bool) (fraction : Fraction)
  deriving DecidableEq, Repr

/-- Takes the bits of a single-precision number apart. -/
def parts (bits : Nat) : Parts :=
  let negative := bits / Nat.pow 2 31 == 1
  let biased : Nat := bits / Nat.pow 2 23 % Nat.pow 2 8
  let fraction : Nat := bits % Nat.pow 2 23
  if biased = 255 then (if fraction = 0 then .infinite negative else .nan)
  else if biased = 0 then
    if fraction = 0 then .zero negative else .finite negative ⟨fraction, -149, false⟩
  else
    .finite negative
      ⟨fraction + Nat.pow 2 23, (biased : Int) - 150, fraction == 0 && biased != 1⟩

def signed (negative : Bool) (text : String) : String := if negative then "-" ++ text else text

/-- The text of the number with these parts. -/
def Parts.text : Parts → String
  | nan => "NaN"
  | infinite negative => signed negative "inf"
  | zero negative => signed negative "0"
  | finite negative fraction =>
      let (point, k) := shortest fraction
      signed negative (positional point k)

/-- The text of a single-precision number. -/
def text (value : Float32) : String := (parts value.toBits.toNat).text

end Decimal

end Railroad
