import Railroad.Drawing.Markup
import Railroad.Drawing.Shape

/-!
# Drawings as SVG

A drawing is written as an SVG element with its own style sheet.  Attributes stand in the
alphabetical order of their names.
-/

namespace Railroad

namespace Svg

def styleSheet : String := "svg.railroad-diagram \x7b
    background-color: #f4f7fb;
\x7d
svg.railroad-diagram path \x7b
    stroke-width: 2;
    stroke: #2b3a4a;
    fill: none;
\x7d
svg.railroad-diagram text \x7b
    font: 13px monospace;
    text-anchor: middle;
    fill: #1b2733;
\x7d
svg.railroad-diagram text.comment \x7b
    font: italic 11px monospace;
    fill: #5a6b7c;
\x7d
svg.railroad-diagram g.terminal rect \x7b
    stroke-width: 2;
    stroke: #2b3a4a;
    fill: #fff7d6;
\x7d
svg.railroad-diagram g.non-terminal rect \x7b
    stroke-width: 2;
    stroke: #2b3a4a;
    fill: #dcecff;
\x7d
svg.railroad-diagram a text \x7b
    fill: #0b5cad;
    text-decoration: underline;
\x7d
"

def number (value : Float32) : String := Decimal.text value

/-- A number behind a minus sign, whatever its own sign is. -/
def opposite (reversed : Bool) (value : Float32) : String :=
  if reversed then "-" ++ number value else number value

def stepText : TrackStep Float32 → String
  | .right length => " h " ++ number length
  | .down length => " v " ++ number length
  | .up length => " v " ++ opposite true length
  | .bend radius clockwise leftward upward =>
      " a " ++ number radius ++ " " ++ number radius ++ " 0 0 " ++ (if clockwise then "1" else "0") ++
        " " ++ opposite leftward radius ++ " " ++ opposite upward radius
  | .shift dx dy => " m " ++ number dx ++ " " ++ number dy

def trackText (line : Track Float32) : String :=
  "M " ++ number line.x ++ " " ++ number line.y ++ String.join (line.steps.map stepText)

/-- The class under which the style sheet knows a leaf. -/
def className : LeafKind → String
  | .terminal => "terminal"
  | .nonTerminal => "non-terminal"
  | .comment => "comment"

def shape : Shape Float32 → Markup
  | .track line => .element "path" [("d", trackText line)] []
  | .box frame =>
      .element "rect"
        [("height", number frame.height), ("rx", number frame.corner), ("ry", number frame.corner),
          ("width", number frame.width), ("x", number frame.x), ("y", number frame.y)] []
  | .caption words =>
      .element "text"
        [("class", className words.kind), ("x", number words.x), ("y", number words.y)]
        [.text words.text]

def figure : Figure Float32 → Markup
  | .plain single => shape single
  | .leaf kind shapes => .element "g" [("class", className kind)] (shapes.map shape)

def ofDrawing (drawing : Drawing Float32) : Markup :=
  .element "svg"
    [("class", "railroad-diagram"), ("height", number drawing.height),
      ("viewBox", "0 0 " ++ number drawing.width ++ " " ++ number drawing.height),
      ("width", number drawing.width), ("xmlns", "http://www.w3.org/2000/svg"),
      ("xmlns:xlink", "http://www.w3.org/1999/xlink")]
    [.element "style" [] [.text styleSheet],
      .element "g" [("transform", "translate(.5 .5)")] (drawing.figures.map figure)]

end Svg

/-- Why a diagram could not be drawn. -/
inductive RenderError where
  | unusableMetric (name : String) (value : Float32)
  | refused (reason : String)

def RenderError.message : RenderError → String
  | unusableMetric name value => "invalid render metric `" ++ name ++ "`: " ++ Decimal.text value
  | refused reason => "render error: " ++ reason

/-- Anything that turns diagrams into SVG text. -/
abbrev Renderer := Diagram → Except RenderError String

/-- The SVG element tree of a diagram. -/
def Diagram.svg (metrics : Metrics Float32) (diagram : Diagram) : Markup :=
  Svg.ofDrawing (Drawing.ofItem metrics (Item.ofDiagram diagram))

/-- Draws with these measures, or says which of them is unusable. -/
def svgRenderer (metrics : Metrics Float32) : Renderer := fun diagram =>
  match metrics.unusable? with
  | some (name, value) => .error (.unusableMetric name value)
  | none => .ok (diagram.svg metrics).render

end Railroad
