import Railroad.Text.Decimal

/-!
# Measures of a drawing

A layout can be computed with any numbers that have the operations named here.  Drawings are
computed in single precision; the same formulas read over other numbers say what they mean
without rounding.
-/

namespace Railroad

/-- The numbers of a layout. -/
class Scalar (α : Type) extends Add α, Sub α, Mul α, Div α, Neg α where
  ofNat : Nat → α
  /-- The larger of two numbers. -/
  larger : α → α → α
  isZero : α → Bool
  isPositive : α → Bool

namespace Scalar

variable {α : Type} [Scalar α]

def zero : α := ofNat 0

def double (value : α) : α := ofNat 2 * value

def half (value : α) : α := value / ofNat 2

end Scalar

/-- A comparison with a number that is none leaves the other one. -/
instance : Scalar Float32 where
  ofNat := Float32.ofNat
  larger first second :=
    if first < second then second else if first == first then first else second
  isZero value := value == 0
  isPositive value := decide (0 < value)

/-- The measures that a configuration may change. -/
structure Metrics (α : Type) where
  /-- Space around the whole drawing. -/
  padding : α
  /-- Gap between stacked branches. -/
  verticalSeparation : α
  /-- Radius of the bends. -/
  arcRadius : α
  /-- Width of a character in a box. -/
  charWidth : α
  /-- Width of a character in a comment. -/
  commentCharWidth : α

namespace Metrics

def standard : Metrics Float32 := ⟨20, 8, 10, 8.5, 7⟩

/-- The measures with their names, in the order in which they are checked. -/
def named {α : Type} (metrics : Metrics α) : List (String × α) :=
  [("padding", metrics.padding), ("vertical_separation", metrics.verticalSeparation),
    ("arc_radius", metrics.arcRadius), ("char_width", metrics.charWidth),
    ("comment_char_width", metrics.commentCharWidth)]

/-- Whether a drawing can be made with this measure. -/
def isUsable (value : Float32) : Bool := value.isFinite && !decide (value < 0)

/-- The first measure that no drawing can be made with. -/
def unusable? (metrics : Metrics Float32) : Option (String × Float32) :=
  metrics.named.find? fun metric => !isUsable metric.2

end Metrics

end Railroad
