import Railroad.Diagram.Basic
import Railroad.Diagram.Label
import Railroad.Drawing.Metrics

/-!
# Layout

A drawing is a single track from left to right.  Every item has a width and needs space above
and below the track; it is entered on the track at its left edge and left at its right edge.
Branches are stacked around the selected one, loops return below the repeated item, and an
optional item is a choice between a bare track above and the item itself.
-/

namespace Railroad

/-- A leaf of a diagram. -/
inductive LeafKind where
  | terminal
  | nonTerminal
  | comment
  deriving DecidableEq, Repr

/-- What is drawn for a diagram; leaves hold the text to show. -/
inductive Item where
  | skip
  | leaf (kind : LeafKind) (text : String)
  | sequence (items : List Item)
  | choice (selected : Nat) (branches : List Item)
  | loop (item : Item)
  deriving Repr

mutual

def Item.ofDiagram : Diagram → Item
  | .sequence items => .sequence (Item.ofDiagrams items)
  | .choice selected branches => .choice selected (Item.ofDiagrams branches)
  | .optional item => .choice 1 [.skip, Item.ofDiagram item]
  | .zeroOrMore item => .choice 1 [.skip, .loop (Item.ofDiagram item)]
  | .oneOrMore item => .loop (Item.ofDiagram item)
  | .terminal label => .leaf .terminal (Label.unescape label)
  | .nonTerminal label => .leaf .nonTerminal (Label.unescape label)
  | .comment label => .leaf .comment (Label.unescape label)

def Item.ofDiagrams : List Diagram → List Item
  | [] => []
  | diagram :: rest => Item.ofDiagram diagram :: Item.ofDiagrams rest

end

/-- The space of an item relative to its entry. -/
structure Extent (α : Type) where
  width : α
  up : α
  down : α

namespace Layout

/-- Half the height of a box. -/
def boxHalfHeight : Nat := 11

/-- Space between the edge of a box and its text. -/
def boxTextPadding : Nat := 10

/-- Radius of the corners of a terminal's box. -/
def roundedCorner : Nat := 10

/-- Track on each side of a box or a comment. -/
def lead : Nat := 10

/-- Space above and below a comment. -/
def commentHalfHeight : Nat := 8

/-- Width of the markers at the ends of the track. -/
def markerWidth : Nat := 20

/-- Half the height of the markers. -/
def markerHalfHeight : Nat := 10

/-- Distance from the track down to the base line of text. -/
def textBaseline : Nat := 4

variable {α : Type} [Scalar α]

open Scalar

def emptyExtent : Extent α := ⟨zero, zero, zero⟩

def textWidth (text : String) (charWidth : α) : α := ofNat text.length * charWidth

/-- The width of a leaf with the track on both sides. -/
def leafWidth (metrics : Metrics α) (kind : LeafKind) (text : String) : α :=
  match kind with
  | .terminal | .nonTerminal =>
      textWidth text metrics.charWidth + ofNat (2 * (boxTextPadding + lead))
  | .comment => textWidth text metrics.commentCharWidth + ofNat (2 * lead)

def leafHalfHeight (kind : LeafKind) : Nat :=
  match kind with
  | .terminal | .nonTerminal => boxHalfHeight
  | .comment => commentHalfHeight

def leafExtent (metrics : Metrics α) (kind : LeafKind) (text : String) : Extent α :=
  ⟨leafWidth metrics kind text, ofNat (leafHalfHeight kind), ofNat (leafHalfHeight kind)⟩

/-- One item after another. -/
def beside (total next : Extent α) : Extent α :=
  ⟨total.width + next.width, larger total.up next.up, larger total.down next.down⟩

/-- Adjacent branches are at least two radii apart, so that the bends fit. -/
def branchGap (metrics : Metrics α) (upper lower : Extent α) : α :=
  larger (upper.down + metrics.verticalSeparation + lower.up) (double metrics.arcRadius)

/-- The branches above a branch need the same gap, added up from the other side. -/
def branchGapAbove (metrics : Metrics α) (upper lower : Extent α) : α :=
  larger (lower.up + metrics.verticalSeparation + upper.down) (double metrics.arcRadius)

/-- Positions of the branches above, the nearest first. -/
def offsetsAbove (metrics : Metrics α) (below : Extent α) (offset : α) : List (Extent α) → List α
  | [] => []
  | branch :: rest =>
      let next := offset - branchGapAbove metrics branch below
      next :: offsetsAbove metrics branch next rest

/-- Positions of the branches below, the nearest first. -/
def offsetsBelow (metrics : Metrics α) (above : Extent α) (offset : α) : List (Extent α) → List α
  | [] => []
  | branch :: rest =>
      let next := offset + branchGap metrics above branch
      next :: offsetsBelow metrics branch next rest

/-- A selection beyond the last branch means the last one. -/
def clampSelection {β : Type} (selected : Nat) (branches : List β) : Nat :=
  min selected (branches.length - 1)

/--
The vertical position of every branch relative to the track.  The selected branch lies on the
track, those before it above, those after it below.
-/
def branchOffsets (metrics : Metrics α) (extents : List (Extent α)) (selected : Nat) : List α :=
  let main := clampSelection selected extents
  match extents.drop main with
  | [] => []
  | onTrack :: after =>
      (offsetsAbove metrics onTrack zero (extents.take main).reverse).reverse ++
        zero :: offsetsBelow metrics onTrack zero after

/-- The width of the widest branch. -/
def innerWidth (extents : List (Extent α)) : α :=
  (extents.map Extent.width).foldl larger zero

/-- The space of branches at their positions, without their width. -/
def stackedExtent (width : α) (branches : List (Extent α × α)) : Extent α :=
  branches.foldl
    (fun total (extent, offset) =>
      ⟨total.width, larger total.up (extent.up - offset), larger total.down (extent.down + offset)⟩)
    ⟨width, zero, zero⟩

def choiceExtent (metrics : Metrics α) (extents : List (Extent α)) (selected : Nat) : Extent α :=
  stackedExtent (innerWidth extents + ofNat 4 * metrics.arcRadius)
    (extents.zip (branchOffsets metrics extents selected))

/-- How far below the track a loop returns. -/
def loopDepth (metrics : Metrics α) (inner : Extent α) : α :=
  larger (inner.down + metrics.verticalSeparation) (double metrics.arcRadius)

def loopExtent (metrics : Metrics α) (inner : Extent α) : Extent α :=
  ⟨inner.width + double metrics.arcRadius, inner.up, loopDepth metrics inner⟩

mutual

/-- The space that an item needs. -/
def measure (metrics : Metrics α) : Item → Extent α
  | .skip => emptyExtent
  | .leaf kind text => leafExtent metrics kind text
  | .sequence items => (measureAll metrics items).foldl beside emptyExtent
  | .choice selected branches => choiceExtent metrics (measureAll metrics branches) selected
  | .loop item => loopExtent metrics (measure metrics item)

def measureAll (metrics : Metrics α) : List Item → List (Extent α)
  | [] => []
  | item :: rest => measure metrics item :: measureAll metrics rest

end

end Layout

end Railroad
