import Railroad.Drawing.Svg
import Railroad.Proofs.Diagram.Labels
import Railroad.Proofs.Drawing.Sketch
import Railroad.Proofs.Page.Tags
import Railroad.Proofs.Printing.Rescan

/-!
# Captions of drawings

A drawing shows the labels of its diagram, each once and from left to right.  Written as SVG it is
a text of plain tags and of captions with these labels.
-/

namespace Railroad

namespace Item

mutual

/-- The texts that an item shows, from left to right. -/
def captions : Item → List String
  | .skip => []
  | .leaf _ text => [text]
  | .sequence items => captionsAll items
  | .choice _ branches => captionsAll branches
  | .loop item => item.captions

def captionsAll : List Item → List String
  | [] => []
  | item :: rest => item.captions ++ captionsAll rest

end

mutual

/-- What an item shows is what its sketch has captions for. -/
theorem captions_sketch : ∀ (item : Item),
    item.captions = (item.sketch.filterMap Sketch.caption?).map Prod.snd
  | .skip => rfl
  | .leaf kind text => by cases kind <;> rfl
  | .sequence items => captionsAll_sketch items
  | .choice _ branches => by
      rw [captions, captionsAll_sketch branches, ← sketchBranches_captions, sketch]
  | .loop item => by
      rw [captions, captions_sketch item, sketch, List.cons_append, List.filterMap_cons_none rfl,
        List.filterMap_append]
      exact congrArg _ (List.append_nil _).symm

theorem captionsAll_sketch : ∀ (items : List Item),
    captionsAll items = ((sketchAll items).filterMap Sketch.caption?).map Prod.snd
  | [] => rfl
  | item :: rest => by
      rw [captionsAll, captions_sketch item, captionsAll_sketch rest, sketchAll,
        List.filterMap_append, List.map_append]

end

theorem ofDiagram_captions (diagram : Diagram) :
    (ofDiagram diagram).captions = diagram.labels.map Label.unescape := by
  have shown : Diagram.label? = fun node => node.leaf?.map Prod.snd := by
    funext node
    cases node <;> rfl
  rw [captions_sketch, ofDiagram_captionSketch, Diagram.leaves, Diagram.labels, shown,
    ← List.map_filterMap, List.map_map, List.map_map]
  rfl

end Item

section Figures

variable {α : Type}

def Shape.captions : Shape α → List String
  | .caption words => [words.text]
  | .track _ | .box _ => []

def Figure.captions : Figure α → List String
  | .plain single => single.captions
  | .leaf _ shapes => shapes.flatMap Shape.captions

/-- The texts of the captions among the figures. -/
def figureCaptions (figures : List (Figure α)) : List String := figures.flatMap Figure.captions

theorem figureCaptions_sketch (figures : List (Figure α)) :
    figureCaptions figures = ((sketchOf figures).filterMap Sketch.caption?).map Prod.snd := by
  have ofShapes (shapes : List (Shape α)) : shapes.flatMap Shape.captions =
      ((shapes.map Shape.sketch).filterMap Sketch.caption?).map Prod.snd := by
    induction shapes with
    | nil => rfl
    | cons single rest ih =>
        cases single with
        | track line => exact ih
        | box frame => exact ih
        | caption words => exact congrArg (_ :: ·) ih
  have ofFigure (figure : Figure α) : figure.captions = figure.shapes.flatMap Shape.captions := by
    cases figure with
    | plain single => exact (List.append_nil _).symm
    | leaf kind shapes => rfl
  rw [sketchOf, ← ofShapes, shapesOf, List.flatMap_assoc, figureCaptions]
  exact congrArg figures.flatMap (funext ofFigure)

end Figures

/-- A drawing shows what its item shows. -/
theorem Drawing.ofItem_captions {α : Type} [Scalar α] (metrics : Metrics α) (item : Item) :
    figureCaptions (Drawing.ofItem metrics item).figures = item.captions := by
  rw [figureCaptions_sketch, ofItem_sketch, List.cons_append, List.filterMap_cons_none rfl,
    List.filterMap_append, Item.captions_sketch]
  exact congrArg _ (List.append_nil _)

namespace Markup

open Page

theorem escapeTextChar_free (c : Char) : '<' ∉ escapeTextChar c := by
  unfold escapeTextChar
  split
  next => decide
  next => decide
  next => decide
  next notOpening _ => exact fun member => notOpening (List.mem_singleton.mp member).symm

theorem escapeText_free (content : String) : '<' ∉ (escapeText content).toList := by
  rw [escapeText, String.toList_ofList]
  intro member
  obtain ⟨c, -, inside⟩ := List.mem_flatMap.mp member
  exact escapeTextChar_free c inside

theorem escapeAttributeChar_unbracketed (c : Char) : Unbracketed (escapeAttributeChar c) := by
  unfold escapeAttributeChar
  split
  next => decide
  next => decide
  next => decide
  next => decide
  next => decide
  next notOpening notClosing _ _ =>
    exact ⟨fun member => notOpening (List.mem_singleton.mp member).symm,
      fun member => notClosing (List.mem_singleton.mp member).symm⟩

theorem escapeAttribute_unbracketed (value : String) :
    Unbracketed (escapeAttribute value).toList := by
  rw [escapeAttribute, String.toList_ofList]
  refine ⟨fun member => ?_, fun member => ?_⟩
  · obtain ⟨c, -, inside⟩ := List.mem_flatMap.mp member
    exact (escapeAttributeChar_unbracketed c).1 inside
  · obtain ⟨c, -, inside⟩ := List.mem_flatMap.mp member
    exact (escapeAttributeChar_unbracketed c).2 inside

/-- Attributes stay inside the tag, whatever their values are. -/
theorem attributes_unbracketed {attributes : List (String × String)}
    (names : ∀ name ∈ attributes.map Prod.fst, Unbracketed name.toList) :
    Unbracketed (String.join (attributes.map attributeText)).toList := by
  induction attributes with
  | nil => exact ⟨List.not_mem_nil, List.not_mem_nil⟩
  | cons given rest ih =>
      obtain ⟨here, later⟩ := List.forall_mem_cons.mp names
      rw [List.map_cons, String.join_cons, String.toList_append, attributeText]
      simp only [String.toList_append]
      exact ((((Unbracketed.append (by decide) here).append (by decide)).append
        (escapeAttribute_unbracketed given.2)).append (by decide)).append (ih later)

theorem renderLines_toList (children : List Markup) :
    (renderLines children).toList = (children.map fun child => '\n' :: child.render.toList).flatten := by
  induction children with
  | nil => rfl
  | cons child rest ih =>
      rw [renderLines, String.toList_append, String.toList_append, ih, List.map_cons,
        List.flatten_cons]
      rfl

variable {allowed shown : List Char → Prop}

theorem renderLines_marked {children : List Markup}
    (marked : ∀ child ∈ children, Marked allowed shown child.render.toList) :
    Marked allowed shown (renderLines children).toList := by
  rw [renderLines_toList]
  refine .flatten fun line member => ?_
  obtain ⟨child, listed, rfl⟩ := List.mem_map.mp member
  exact .char (by decide) (marked child listed)

/-- An element is its opening tag, with its lines and its closing tag behind it if it is not empty. -/
theorem render_split {name : String} {attributes : List (String × String)} (children : List Markup)
    (names : ∀ name ∈ attributes.map Prod.fst, Unbracketed name.toList) : ∃ inside behind,
    (element name attributes children).render.toList = tagged (name.toList ++ inside) behind ∧
      Unbracketed inside ∧ (behind = [] ∨ behind =
        (renderLines children).toList ++ '\n' :: tagged ('/' :: name.toList) []) := by
  have closed := attributes_unbracketed names
  cases children with
  | nil =>
      refine ⟨(String.join (attributes.map attributeText)).toList ++ ['/'], [], ?_,
        closed.append (by decide), Or.inl rfl⟩
      simp [render, tagged]
  | cons child rest =>
      refine ⟨(String.join (attributes.map attributeText)).toList, _, ?_, closed, Or.inr rfl⟩
      simp [render, tagged]

/-- An element that is neither a link nor a text nor a row is as marked as its children. -/
theorem render_marked (frame : ∀ body, IsFrameTag body → allowed body) {name : String}
    {attributes : List (String × String)} {children : List Markup}
    (plain : IsPlainTag name.toList) (noLink : ¬name.toList <+: "a".toList)
    (noText : ¬name.toList <+: "text".toList) (noRow : ¬name.toList <+: errorTag)
    (names : ∀ name ∈ attributes.map Prod.fst, Unbracketed name.toList)
    (marked : ∀ child ∈ children, Marked allowed shown child.render.toList) :
    Marked allowed shown (element name attributes children).render.toList := by
  obtain ⟨inside, behind, split, closed, lines⟩ := render_split children names
  have slash : IsPlainTag ['/'] := by decide
  have opening : IsFrameTag (name.toList ++ inside) :=
    .append plain noLink noText noRow closed
  have ending : IsFrameTag ('/' :: name.toList) :=
    .append slash (by decide) (by decide) (by decide) plain.1
  rw [split]
  refine .tag opening.1.1 (frame _ opening) ?_
  rcases lines with rfl | rfl
  · exact .nil
  · exact .append (renderLines_marked marked)
      (.char (by decide) (.tag ending.1.1 (frame _ ending) .nil))

/-- A text element is a caption. -/
theorem render_caption {given : String × String} {attributes : List (String × String)}
    {content : String} (names : ∀ name ∈ (given :: attributes).map Prod.fst, Unbracketed name.toList)
    (visible : Visible (escapeText content).toList) (isShown : shown (escapeText content).toList) :
    Marked allowed shown (element "text" (given :: attributes) [text content]).render.toList := by
  have closed := attributes_unbracketed names
  obtain ⟨inside, first⟩ : ∃ inside,
      (String.join ((given :: attributes).map attributeText)).toList = ' ' :: inside := by
    simp [attributeText]
  have split : (element "text" (given :: attributes) [text content]).render.toList =
      captionText inside (escapeText content).toList ++ [] := by
    simp only [render, renderLines, String.toList_append, first]
    simp [captionText, tagged, closingTag_eq]
  rw [first] at closed
  rw [split]
  exact .caption (Unbracketed.tail closed) visible isShown .nil

end Markup

namespace Svg

open Page Markup

/-- What a caption with this text needs. -/
def IsShown (shown : List Char → Prop) (text : String) : Prop :=
  Visible (escapeText text).toList ∧ shown (escapeText text).toList

variable {allowed shown : List Char → Prop} (frame : ∀ body, IsFrameTag body → allowed body)

include frame

theorem shape_marked (single : Shape Float32) (texts : ∀ text ∈ single.captions, IsShown shown text) :
    Marked allowed shown (shape single).render.toList := by
  cases single with
  | track line =>
      have names : ∀ name ∈ ["d"], Unbracketed name.toList := by decide
      exact render_marked frame (by decide) (by decide) (by decide) (by decide) names
        (List.forall_mem_nil _)
  | box outline =>
      have names : ∀ name ∈ ["height", "rx", "ry", "width", "x", "y"],
          Unbracketed name.toList := by decide
      exact render_marked frame (by decide) (by decide) (by decide) (by decide) names
        (List.forall_mem_nil _)
  | caption words =>
      have names : ∀ name ∈ ["class", "x", "y"], Unbracketed name.toList := by decide
      obtain ⟨visible, isShown⟩ := texts words.text (List.mem_singleton_self _)
      exact render_caption names visible isShown

/-- A group has one attribute. -/
theorem group_marked {name value : String} {children : List Markup}
    (closed : Unbracketed name.toList)
    (marked : ∀ child ∈ children, Marked allowed shown child.render.toList) :
    Marked allowed shown (element "g" [(name, value)] children).render.toList :=
  render_marked frame (by decide) (by decide) (by decide) (by decide)
    (List.forall_mem_singleton.mpr closed) marked

theorem figure_marked (drawn : Figure Float32) (texts : ∀ text ∈ drawn.captions, IsShown shown text) :
    Marked allowed shown (figure drawn).render.toList := by
  cases drawn with
  | plain single => exact shape_marked frame single texts
  | leaf kind shapes =>
      refine group_marked frame (by decide) fun child member => ?_
      obtain ⟨single, listed, rfl⟩ := List.mem_map.mp member
      exact shape_marked frame single fun text inside =>
        texts text (List.mem_flatMap.mpr ⟨single, listed, inside⟩)

theorem ofDrawing_marked (drawing : Drawing Float32)
    (texts : ∀ text ∈ figureCaptions drawing.figures, IsShown shown text) :
    Marked allowed shown (ofDrawing drawing).render.toList := by
  have names : ∀ name ∈ ["class", "height", "viewBox", "width", "xmlns", "xmlns:xlink"],
      Unbracketed name.toList := by decide
  have sheet : Marked allowed shown (element "style" [] [.text styleSheet]).render.toList :=
    render_marked frame (by decide) (by decide) (by decide) (by decide) (List.forall_mem_nil _)
      (List.forall_mem_singleton.mpr (.of_free (escapeText_free _)))
  have figures : Marked allowed shown (element "g" [("transform", "translate(.5 .5)")]
      (drawing.figures.map figure)).render.toList := by
    refine group_marked frame (by decide) fun child member => ?_
    obtain ⟨drawn, listed, rfl⟩ := List.mem_map.mp member
    exact figure_marked frame drawn fun text inside =>
      texts text (List.mem_flatMap.mpr ⟨drawn, listed, inside⟩)
  exact render_marked frame (by decide) (by decide) (by decide) (by decide) names
    (List.forall_mem_cons.mpr ⟨sheet, List.forall_mem_singleton.mpr figures⟩)

end Svg

/-- The drawing of a diagram has a caption for each of its labels and no other. -/
theorem Diagram.svg_marked {allowed shown : List Char → Prop}
    (frame : ∀ body, Page.IsFrameTag body → allowed body) (metrics : Metrics Float32)
    (diagram : Diagram) (texts : ∀ label ∈ diagram.labels, Svg.IsShown shown (Label.unescape label)) :
    Page.Marked allowed shown (diagram.svg metrics).render.toList := by
  refine Svg.ofDrawing_marked frame _ fun text member => ?_
  rw [Drawing.ofItem_captions, Item.ofDiagram_captions] at member
  obtain ⟨label, listed, rfl⟩ := List.mem_map.mp member
  exact texts label listed

end Railroad
