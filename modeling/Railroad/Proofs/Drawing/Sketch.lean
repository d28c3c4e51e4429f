import Railroad.Drawing.Shape

/-!
# Sketches of drawings

A sketch is what is left of a drawing without its measures: its tracks, boxes and captions, in the
order in which they are drawn.  It is known from the diagram alone, and the elements of the SVG
tree are known from it.
-/

namespace Railroad

/-- A shape without its measures. -/
inductive Sketch where
  | track
  | box
  | caption (kind : LeafKind) (text : String)
  deriving DecidableEq, Repr

def Sketch.caption? : Sketch → Option (LeafKind × String)
  | .caption kind text => some (kind, text)
  | .track | .box => none

section Figures

variable {α : Type}

def Shape.sketch : Shape α → Sketch
  | .track _ => .track
  | .box _ => .box
  | .caption words => .caption words.kind words.text

def Figure.shapes : Figure α → List (Shape α)
  | .plain single => [single]
  | .leaf _ shapes => shapes

/-- All shapes of the figures, in their order. -/
def shapesOf (figures : List (Figure α)) : List (Shape α) := figures.flatMap Figure.shapes

@[simp]
theorem shapesOf_nil : shapesOf ([] : List (Figure α)) = [] := rfl

@[simp]
theorem shapesOf_cons (figure : Figure α) (rest : List (Figure α)) :
    shapesOf (figure :: rest) = figure.shapes ++ shapesOf rest := List.flatMap_cons

@[simp]
theorem shapesOf_append (first second : List (Figure α)) :
    shapesOf (first ++ second) = shapesOf first ++ shapesOf second := List.flatMap_append

def sketchOf (figures : List (Figure α)) : List Sketch := (shapesOf figures).map Shape.sketch

@[simp]
theorem sketchOf_nil : sketchOf ([] : List (Figure α)) = [] := rfl

@[simp]
theorem sketchOf_cons (figure : Figure α) (rest : List (Figure α)) :
    sketchOf (figure :: rest) = figure.shapes.map Shape.sketch ++ sketchOf rest := by
  rw [sketchOf, shapesOf_cons, List.map_append, sketchOf]

@[simp]
theorem sketchOf_append (first second : List (Figure α)) :
    sketchOf (first ++ second) = sketchOf first ++ sketchOf second := by
  rw [sketchOf, shapesOf_append, List.map_append, sketchOf, sketchOf]

end Figures

namespace Item

/-- A leaf stands between two pieces of track; comments have no box. -/
def leafSketch (kind : LeafKind) (text : String) : List Sketch :=
  match kind with
  | .terminal | .nonTerminal => [.track, .track, .box, .caption kind text]
  | .comment => [.track, .track, .caption kind text]

mutual

def sketch : Item → List Sketch
  | .skip => []
  | .leaf kind text => leafSketch kind text
  | .sequence items => sketchAll items
  | .choice _ branches => sketchBranches branches
  | .loop item => .track :: item.sketch ++ [.track, .track]

def sketchAll : List Item → List Sketch
  | [] => []
  | item :: rest => item.sketch ++ sketchAll rest

/-- Every branch lies between the tracks that lead to it and from it. -/
def sketchBranches : List Item → List Sketch
  | [] => []
  | branch :: rest => .track :: branch.sketch ++ .track :: sketchBranches rest

end

end Item

namespace Layout

variable {α : Type} [Scalar α] (metrics : Metrics α)

theorem offsetsAbove_length (below : Extent α) (offset : α) (branches : List (Extent α)) :
    (offsetsAbove metrics below offset branches).length = branches.length := by
  induction branches generalizing below offset with
  | nil => rfl
  | cons branch rest ih => exact congrArg (· + 1) (ih _ _)

theorem offsetsBelow_length (above : Extent α) (offset : α) (branches : List (Extent α)) :
    (offsetsBelow metrics above offset branches).length = branches.length := by
  induction branches generalizing above offset with
  | nil => rfl
  | cons branch rest ih => exact congrArg (· + 1) (ih _ _)

/-- Every branch has a position. -/
theorem branchOffsets_length (extents : List (Extent α)) (selected : Nat) :
    (branchOffsets metrics extents selected).length = extents.length := by
  have inside : clampSelection selected extents ≤ extents.length - 1 := Nat.min_le_right ..
  have taken : (extents.take (clampSelection selected extents)).length =
      clampSelection selected extents := by
    rw [List.length_take]
    omega
  have left := List.length_drop (i := clampSelection selected extents) (l := extents)
  unfold branchOffsets
  dsimp only
  split
  next none =>
    rw [none, List.length_nil] at left
    rw [List.length_nil]
    omega
  next onTrack after split =>
    rw [split, List.length_cons] at left
    rw [List.length_append, List.length_reverse, offsetsAbove_length, List.length_reverse, taken,
      List.length_cons, offsetsBelow_length]
    omega

theorem measureAll_length (items : List Item) :
    (measureAll metrics items).length = items.length := by
  induction items with
  | nil => rfl
  | cons item rest ih => exact congrArg (· + 1) ih

theorem leafFigures_sketch (kind : LeafKind) (text : String) (x y width : α) :
    sketchOf (leafFigures kind (leafShapes kind text x y width)) = Item.leafSketch kind text := by
  cases kind <;> rfl

theorem exitTrack_sketch (r x y offset fill : α) : (exitTrack r x y offset fill).sketch = .track := by
  unfold exitTrack
  split
  · rfl
  · split <;> rfl

mutual

/-- What is drawn depends on the measures only in where it is drawn. -/
theorem draw_sketch : ∀ (item : Item) (x y : α), sketchOf (draw metrics item x y) = item.sketch
  | .skip, _, _ => rfl
  | .leaf kind text, _, _ => leafFigures_sketch kind text _ _ _
  | .sequence items, x, y => drawSequence_sketch items x y
  | .choice selected branches, x, y => by
      refine drawBranches_sketch branches _ _ x y ?_
      rw [branchOffsets_length, measureAll_length]
  | .loop item, x, y => by
      rw [draw, List.cons_append, sketchOf_cons, sketchOf_append, draw_sketch item]
      rfl

theorem drawSequence_sketch : ∀ (items : List Item) (x y : α),
    sketchOf (drawSequence metrics items x y) = Item.sketchAll items
  | [], _, _ => rfl
  | item :: rest, x, y => by
      rw [drawSequence, sketchOf_append, draw_sketch item, drawSequence_sketch rest, Item.sketchAll]

theorem drawBranches_sketch : ∀ (branches : List Item) (inner : α) (offsets : List α) (x y : α),
    offsets.length = branches.length →
      sketchOf (drawBranches metrics inner branches offsets x y) = Item.sketchBranches branches
  | [], _, _, _, _, _ => by
      rw [drawBranches]
      · rfl
      · exact fun _ _ _ _ none => absurd none (List.cons_ne_nil _ _).symm
  | _ :: _, _, [], _, _, missing => absurd missing (Nat.zero_ne_add_one _)
  | branch :: rest, inner, offset :: offsets, x, y, same => by
      have exit (x fill : α) : (Figure.plain
          (exitTrack metrics.arcRadius x y offset fill)).shapes.map Shape.sketch = [.track] :=
        congrArg (fun sketch => [sketch]) (exitTrack_sketch _ _ _ _ _)
      rw [drawBranches, List.cons_append, sketchOf_cons, sketchOf_append, draw_sketch branch,
        sketchOf_cons, drawBranches_sketch rest inner offsets x y (Nat.succ.inj same),
        Item.sketchBranches, exit]
      rfl

end

end Layout

/-- A drawing is sketched as its item is, between the two markers. -/
theorem Drawing.ofItem_sketch {α : Type} [Scalar α] (metrics : Metrics α) (item : Item) :
    sketchOf (Drawing.ofItem metrics item).figures = .track :: item.sketch ++ [.track] := by
  rw [Drawing.ofItem, List.cons_append, sketchOf_cons, sketchOf_append, Layout.draw_sketch]
  rfl

namespace Diagram

/-- What a leaf shows, with its kind. -/
def leaf? : Diagram → Option (LeafKind × String)
  | terminal label => some (.terminal, label)
  | nonTerminal label => some (.nonTerminal, label)
  | comment label => some (.comment, label)
  | sequence _ | choice _ _ | optional _ | zeroOrMore _ | oneOrMore _ => none

/-- The leaves of a diagram with their labels, in preorder. -/
def leaves (diagram : Diagram) : List (LeafKind × String) := diagram.preorder.filterMap leaf?

theorem leaves_optional (item : Diagram) : (optional item).leaves = item.leaves := rfl

theorem leaves_zeroOrMore (item : Diagram) : (zeroOrMore item).leaves = item.leaves := rfl

theorem leaves_oneOrMore (item : Diagram) : (oneOrMore item).leaves = item.leaves := rfl

/-- What is drawn for a node besides its children. -/
def ownSketch : Diagram → List Sketch
  | sequence _ => []
  | choice _ branches => List.replicate (2 * branches.length) .track
  | optional _ => List.replicate 4 .track
  | zeroOrMore _ => List.replicate 7 .track
  | oneOrMore _ => List.replicate 3 .track
  | terminal label => Item.leafSketch .terminal (Label.unescape label)
  | nonTerminal label => Item.leafSketch .nonTerminal (Label.unescape label)
  | comment label => Item.leafSketch .comment (Label.unescape label)

end Diagram

namespace Item

theorem ofDiagrams_length (diagrams : List Diagram) :
    (ofDiagrams diagrams).length = diagrams.length := by
  induction diagrams with
  | nil => rfl
  | cons diagram rest ih => exact congrArg (· + 1) ih

/-- The tracks around branches show nothing. -/
theorem sketchBranches_captions (branches : List Item) :
    (sketchBranches branches).filterMap Sketch.caption? =
      (sketchAll branches).filterMap Sketch.caption? := by
  induction branches with
  | nil => rfl
  | cons branch rest ih =>
      simp [sketchBranches, sketchAll, List.filterMap_cons, Sketch.caption?, ih]

theorem sketchBranches_count (shown : Sketch) (branches : List Item) :
    (sketchBranches branches).count shown =
      (List.replicate (2 * branches.length) Sketch.track ++ sketchAll branches).count shown := by
  induction branches with
  | nil => rfl
  | cons branch rest ih =>
      simp only [sketchBranches, sketchAll, List.length_cons, List.count_append, List.count_cons,
        List.count_replicate, List.cons_append] at ih ⊢
      rw [ih]
      split <;> omega

mutual

/-- The captions of a drawing are the leaves of the diagram, in preorder. -/
theorem ofDiagram_captionSketch : ∀ (diagram : Diagram),
    (ofDiagram diagram).sketch.filterMap Sketch.caption? =
      diagram.leaves.map fun leaf => (leaf.1, Label.unescape leaf.2)
  | .sequence items => ofDiagrams_captionSketch items
  | .choice _ branches => (sketchBranches_captions _).trans (ofDiagrams_captionSketch branches)
  | .optional item => by
      rw [Diagram.leaves_optional, ← ofDiagram_captionSketch item]
      simp [ofDiagram, sketch, sketchBranches, Sketch.caption?, List.filterMap_cons]
  | .zeroOrMore item => by
      rw [Diagram.leaves_zeroOrMore, ← ofDiagram_captionSketch item]
      simp [ofDiagram, sketch, sketchBranches, Sketch.caption?, List.filterMap_cons]
  | .oneOrMore item => by
      rw [Diagram.leaves_oneOrMore, ← ofDiagram_captionSketch item]
      simp [ofDiagram, sketch, Sketch.caption?, List.filterMap_cons]
  | .terminal _ => rfl
  | .nonTerminal _ => rfl
  | .comment _ => rfl

theorem ofDiagrams_captionSketch : ∀ (diagrams : List Diagram),
    (sketchAll (ofDiagrams diagrams)).filterMap Sketch.caption? =
      ((Diagram.preorderAll diagrams).filterMap Diagram.leaf?).map
        fun leaf => (leaf.1, Label.unescape leaf.2)
  | [] => rfl
  | diagram :: rest => by
      rw [ofDiagrams, sketchAll, List.filterMap_append, ofDiagram_captionSketch diagram,
        ofDiagrams_captionSketch rest, Diagram.preorderAll, List.filterMap_append, List.map_append,
        Diagram.leaves]

end

mutual

/-- Every node is drawn with its own shapes, however the drawing orders them. -/
theorem ofDiagram_count (shown : Sketch) : ∀ (diagram : Diagram),
    (ofDiagram diagram).sketch.count shown = (diagram.preorder.flatMap Diagram.ownSketch).count shown
  | .sequence items => ofDiagrams_count shown items
  | .choice _ branches => by
      rw [ofDiagram, sketch, sketchBranches_count, ofDiagrams_length, List.count_append,
        ofDiagrams_count shown branches, Diagram.preorder, List.flatMap_cons, List.count_append]
      rfl
  | .optional item => by
      rw [ofDiagram, sketch, sketchBranches_count, List.count_append, sketchAll, sketchAll,
        sketchAll, List.append_nil, sketch, List.nil_append, ofDiagram_count shown item,
        Diagram.preorder, List.flatMap_cons, List.count_append]
      rfl
  | .zeroOrMore item => by
      have around : (sketch (.loop (ofDiagram item))).count shown =
          (List.replicate 3 Sketch.track).count shown + (ofDiagram item).sketch.count shown := by
        simp only [sketch, List.cons_append, List.count_cons, List.count_append,
          List.replicate_succ, List.replicate_zero, List.count_nil]
        omega
      rw [ofDiagram, sketch, sketchBranches_count, List.count_append, sketchAll, sketchAll,
        sketchAll, List.append_nil, sketch, List.nil_append, around, ofDiagram_count shown item,
        Diagram.preorder, List.flatMap_cons, List.count_append, ← Nat.add_assoc, ← List.count_append]
      rfl
  | .oneOrMore item => by
      simp only [ofDiagram, sketch, Diagram.preorder, List.flatMap_cons, Diagram.ownSketch,
        List.cons_append, List.count_cons, List.count_append, List.replicate_succ,
        List.replicate_zero, List.count_nil, ofDiagram_count shown item]
      omega
  | .terminal _ => congrArg (List.count shown) (List.append_nil _).symm
  | .nonTerminal _ => congrArg (List.count shown) (List.append_nil _).symm
  | .comment _ => congrArg (List.count shown) (List.append_nil _).symm

theorem ofDiagrams_count (shown : Sketch) : ∀ (diagrams : List Diagram),
    (sketchAll (ofDiagrams diagrams)).count shown =
      ((Diagram.preorderAll diagrams).flatMap Diagram.ownSketch).count shown
  | [] => rfl
  | diagram :: rest => by
      rw [ofDiagrams, sketchAll, List.count_append, ofDiagram_count shown diagram,
        ofDiagrams_count shown rest, Diagram.preorderAll, List.flatMap_append, List.count_append]

end

end Item

end Railroad
