import Railroad.Drawing.Svg
import Railroad.Proofs.Drawing.Sketch

/-!
# Elements of drawings

The element tree of a drawing holds a path for every track, a rectangle for every box and a text
for every caption, in the order in which they are drawn.  With the sketch of the diagram this says
what every drawing of it shows, whatever the measures are.
-/

namespace Railroad

namespace Markup

mutual

/-- All elements of a tree in document order, each before those inside it. -/
def elements : Markup → List Markup
  | element name attributes children => element name attributes children :: elementsAll children
  | text _ => []

def elementsAll : List Markup → List Markup
  | [] => []
  | child :: rest => child.elements ++ elementsAll rest

end

def hasName (name : String) : Markup → Bool
  | element own _ _ => own == name
  | text _ => false

/-- The elements of a tree with this name, in document order. -/
def named (name : String) (tree : Markup) : List Markup := tree.elements.filter (hasName name)

def attribute? (name : String) : Markup → Option String
  | element _ attributes _ => attributes.lookup name
  | text _ => none

/-- The text of an element that holds nothing else. -/
def content? : Markup → Option String
  | element _ _ [text content] => some content
  | _ => none

end Markup

namespace Svg

open Markup

theorem shapes_elements (shapes : List (Shape Float32)) :
    elementsAll (shapes.map shape) = shapes.map shape := by
  induction shapes with
  | nil => rfl
  | cons single rest ih =>
      have here : (shape single).elements = [shape single] := by cases single <;> rfl
      rw [List.map_cons, elementsAll, here, ih, List.singleton_append]

/-- Groups only hold shapes together. -/
theorem figures_named {name : String} (notGroup : ("g" == name) = false)
    (figures : List (Figure Float32)) : (elementsAll (figures.map figure)).filter (hasName name) =
      ((shapesOf figures).map shape).filter (hasName name) := by
  induction figures with
  | nil => rfl
  | cons drawn rest ih =>
      have here : (figure drawn).elements.filter (hasName name) =
          (drawn.shapes.map shape).filter (hasName name) := by
        cases drawn with
        | plain single => rw [figure, ← shapes_elements, Figure.shapes, List.map_singleton,
            elementsAll, elementsAll, List.append_nil]
        | leaf kind shapes =>
            rw [figure, elements, shapes_elements, List.filter_cons_of_neg, Figure.shapes]
            exact Bool.eq_false_iff.mp notGroup
      rw [List.map_cons, elementsAll, List.filter_append, here, ih, shapesOf_cons, List.map_append,
        List.filter_append]

/-- Apart from its frame a drawing has the elements of its shapes. -/
theorem ofDrawing_named {name : String} (notFrame : name ∉ ["svg", "style", "g"])
    (drawing : Drawing Float32) : (ofDrawing drawing).named name =
      ((shapesOf drawing.figures).map shape).filter (hasName name) := by
  have other (own : String) (listed : own ∈ ["svg", "style", "g"]) : (own == name) = false :=
    beq_eq_false_iff_ne.mpr fun same => notFrame (same ▸ listed)
  rw [← figures_named (other "g" (by decide)), named, ofDrawing]
  simp only [elements, elementsAll, List.append_nil, List.nil_append, List.cons_append,
    List.filter_cons, hasName, other "svg" (by decide), other "style" (by decide),
    other "g" (by decide), Bool.false_eq_true, if_false]

/-- The texts among the shapes, by their classes and contents. -/
theorem shapes_captions (shapes : List (Shape Float32)) :
    ((shapes.map shape).filter (hasName "text")).map
        (fun caption => (caption.attribute? "class", caption.content?)) =
      ((shapes.map Shape.sketch).filterMap Sketch.caption?).map
        fun caption => (some (className caption.1), some caption.2) := by
  induction shapes with
  | nil => rfl
  | cons single rest ih =>
      cases single with
      | track line => exact ih
      | box frame => exact ih
      | caption words => exact congrArg (_ :: ·) ih

end Svg

/-- The captions of a drawing are those of the leaves of its diagram. -/
theorem Diagram.svg_captions (metrics : Metrics Float32) (diagram : Diagram) :
    ((diagram.svg metrics).named "text").map
        (fun caption => (caption.attribute? "class", caption.content?)) =
      diagram.leaves.map
        (fun leaf => (some (Svg.className leaf.1), some (Label.unescape leaf.2))) := by
  rw [svg, Svg.ofDrawing_named (by decide), Svg.shapes_captions, ← sketchOf, Drawing.ofItem_sketch,
    List.cons_append, List.filterMap_cons_none rfl, List.filterMap_append,
    List.filterMap_cons_none rfl, List.filterMap_nil, List.append_nil,
    Item.ofDiagram_captionSketch, List.map_map]
  rfl

end Railroad
