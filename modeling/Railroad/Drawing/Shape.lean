import Railroad.Drawing.Layout

/-!
# Shapes

An item is drawn as tracks, boxes and captions.  A track begins at a point and goes on by steps;
the shapes of a boxed leaf are kept together.
-/

namespace Railroad

/-- A step of a track.  A bend is a quarter of a circle. -/
inductive TrackStep (α : Type) where
  | right (length : α)
  | down (length : α)
  | up (length : α)
  | bend (radius : α) (clockwise leftward upward : Bool)
  /-- A move that leaves no line. -/
  | shift (dx dy : α)

structure Track (α : Type) where
  x : α
  y : α
  steps : List (TrackStep α)

structure Box (α : Type) where
  x : α
  y : α
  width : α
  height : α
  corner : α

structure Caption (α : Type) where
  kind : LeafKind
  x : α
  y : α
  text : String

inductive Shape (α : Type) where
  | track (line : Track α)
  | box (frame : Box α)
  | caption (words : Caption α)

/-- A shape on its own, or the shapes of a boxed leaf. -/
inductive Figure (α : Type) where
  | plain (shape : Shape α)
  | leaf (kind : LeafKind) (shapes : List (Shape α))

/-- A whole drawing with its size. -/
structure Drawing (α : Type) where
  width : α
  height : α
  figures : List (Figure α)

namespace Layout

variable {α : Type} [Scalar α]

open Scalar

def lineAt (x y : α) (steps : List (TrackStep α)) : Shape α := .track ⟨x, y, steps⟩

/-- The track on both sides of a leaf. -/
def leads (x y width : α) : List (Shape α) :=
  [lineAt x y [.right (ofNat lead)], lineAt (x + width - ofNat lead) y [.right (ofNat lead)]]

def captionShape (kind : LeafKind) (text : String) (x y width : α) : Shape α :=
  .caption ⟨kind, x + half width, y + ofNat textBaseline, text⟩

def boxShape (corner : Nat) (x y width : α) : Shape α :=
  .box ⟨x + ofNat lead, y - ofNat boxHalfHeight, width - ofNat (2 * lead),
    ofNat (2 * boxHalfHeight), ofNat corner⟩

def leafShapes (kind : LeafKind) (text : String) (x y width : α) : List (Shape α) :=
  match kind with
  | .terminal => leads x y width ++ [boxShape roundedCorner x y width, captionShape kind text x y width]
  | .nonTerminal => leads x y width ++ [boxShape 0 x y width, captionShape kind text x y width]
  | .comment => leads x y width ++ [captionShape kind text x y width]

def leafFigures (kind : LeafKind) (shapes : List (Shape α)) : List (Figure α) :=
  match kind with
  | .terminal | .nonTerminal => [.leaf kind shapes]
  | .comment => shapes.map Figure.plain

/-- From the track down to a branch. -/
def bendDown (r run : α) : List (TrackStep α) :=
  [.bend r true false false, .down run, .bend r false false false]

/-- From the track up to a branch. -/
def bendUp (r run : α) : List (TrackStep α) :=
  [.bend r false false true, .up run, .bend r true false true]

/-- The track that leads from the entry of a choice to one of its branches. -/
def entryTrack (r x y offset : α) : Shape α :=
  lineAt x y
    (if isZero offset then [.right (double r)]
    else if isPositive offset then bendDown r (offset - double r)
    else bendUp r (-offset - double r))

/-- The track that leads from a branch to the exit of a choice. -/
def exitTrack (r x y offset fill : α) : Shape α :=
  if isZero offset then lineAt x y [.right (fill + double r)]
  else if isPositive offset then
    lineAt x (y + offset)
      (.right fill ::
        [.bend r false false true, .up (offset - double r), .bend r true false true])
  else
    lineAt x (y + offset)
      (.right fill ::
        [.bend r true false false, .down (-offset - double r), .bend r false false false])

/-- The way back below a repeated item. -/
def returnTrack (r x y run width : α) : Shape α :=
  lineAt x y
    [.bend r false true false, .down run, .bend r false false false, .right width,
      .bend r false false true, .up run, .bend r false true true]

mutual

/-- The figures of an item whose entry is at `(x, y)`. -/
def draw (metrics : Metrics α) : Item → α → α → List (Figure α)
  | .skip, _, _ => []
  | .leaf kind text, x, y =>
      leafFigures kind (leafShapes kind text x y (leafWidth metrics kind text))
  | .sequence items, x, y => drawSequence metrics items x y
  | .choice selected branches, x, y =>
      let extents := measureAll metrics branches
      drawBranches metrics (innerWidth extents) branches
        (branchOffsets metrics extents selected) x y
  | .loop item, x, y =>
      let r := metrics.arcRadius
      let inner := measure metrics item
      .plain (lineAt x y [.right r]) :: draw metrics item (x + r) y ++
        [.plain (lineAt (x + r + inner.width) y [.right r]),
          .plain (returnTrack r (x + r) y (loopDepth metrics inner - double r) inner.width)]

/-- Items one after another. -/
def drawSequence (metrics : Metrics α) : List Item → α → α → List (Figure α)
  | [], _, _ => []
  | item :: rest, x, y =>
      draw metrics item x y ++ drawSequence metrics rest (x + (measure metrics item).width) y

/-- Branches at their positions, each with the tracks that lead to it and from it. -/
def drawBranches (metrics : Metrics α) (inner : α) : List Item → List α → α → α → List (Figure α)
  | branch :: rest, offset :: offsets, x, y =>
      let r := metrics.arcRadius
      let width := (measure metrics branch).width
      .plain (entryTrack r x y offset) :: draw metrics branch (x + double r) (y + offset) ++
        .plain (exitTrack r (x + double r + width) y offset (inner - width)) ::
          drawBranches metrics inner rest offsets x y
  | _, _, _, _ => []

end

def barHeight : Nat := 2 * markerHalfHeight

/-- Two bars and a piece of track. -/
def startMarker (x y : α) : Shape α :=
  lineAt x (y - ofNat markerHalfHeight)
    [.down (ofNat barHeight), .shift (ofNat 10) (-ofNat barHeight), .down (ofNat barHeight),
      .shift (-ofNat 10) (-ofNat markerHalfHeight), .right (ofNat markerWidth)]

/-- A piece of track and two bars. -/
def endMarker (x y : α) : Shape α :=
  lineAt x y
    [.right (ofNat markerWidth), .shift (-ofNat 10) (-ofNat markerHalfHeight),
      .down (ofNat barHeight), .shift (ofNat 10) (-ofNat barHeight), .down (ofNat barHeight)]

end Layout

open Layout Scalar in
/-- The drawing of an item between its markers, with padding on all sides. -/
def Drawing.ofItem {α : Type} [Scalar α] (metrics : Metrics α) (item : Item) : Drawing α :=
  let extent := measure metrics item
  let up := larger extent.up (ofNat markerHalfHeight)
  let down := larger extent.down (ofNat markerHalfHeight)
  let x := metrics.padding
  let y := metrics.padding + up
  { width := double (metrics.padding + ofNat markerWidth) + extent.width
    height := double metrics.padding + up + down
    figures :=
      .plain (startMarker x y) :: draw metrics item (x + ofNat markerWidth) y ++
        [.plain (endMarker (x + ofNat markerWidth + extent.width) y)] }

end Railroad
