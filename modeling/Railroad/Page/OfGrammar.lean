import Railroad.Diagram.OfGrammar
import Railroad.Drawing.Svg
import Railroad.Grammar.Documentation
import Railroad.Grammar.Parser
import Railroad.Grammar.Redeclaration
import Railroad.Page.Basic
import Railroad.Settings.Basic

/-!
# Pages of grammars

The rules of a grammar that are selected from a root are drawn one by one.  A rule that cannot
be drawn gets an entry that says so and keeps no other rule from the page.
-/

namespace Railroad

/-- Everything that is written about one grammar. -/
structure GrammarPage where
  html : String
  /-- One line per rule that has a diagram. -/
  specification : String
  /-- The selected names, in the order in which they are shown. -/
  rules : List String
  /-- The rules that could not be drawn, with the reasons. -/
  failures : List (String × RenderError)
  warnings : List Diagnostic

namespace GrammarPage

/-- A selected rule that has a diagram, with the outcome of drawing it. -/
structure Rendering where
  rule : String
  outcome : Except RenderError String

def Rendering.entry (descriptions : Catalog String String) (rendering : Rendering) : Entry :=
  match rendering.outcome with
  | .ok svg => .drawn rendering.rule svg (descriptions.get? rendering.rule)
  | .error reason => .unavailable rendering.rule reason.message

def Rendering.failure? (rendering : Rendering) : Option (String × RenderError) :=
  match rendering.outcome with
  | .ok _ => none
  | .error reason => some (rendering.rule, reason)

def renderings (renderer : Renderer) (drawn : DrawnGrammar) (rules : List String) :
    List Rendering :=
  rules.filterMap fun rule => (drawn.diagram? rule).map fun diagram => ⟨rule, renderer diagram⟩

/-- The page of a grammar, with the descriptions of its rules. -/
def ofGrammar (settings : Settings) (renderer : Renderer) (fileName : String)
    (root : Option String) (grammar : Grammar) (descriptions : Catalog String String) : GrammarPage :=
  let drawn := grammar.drawn
  let rules := drawn.select root
  let renderings := renderings renderer drawn rules
  let page : Page := {
    fileName
    title := settings.title.getD grammar.name.value
    crossLinks := settings.crossLinks
    entries := renderings.map (Rendering.entry descriptions) }
  { html := page.text fun name => (drawn.diagram? name).isSome
    specification := drawn.specification rules
    rules
    failures := renderings.filterMap Rendering.failure?
    warnings := grammar.warnings }

/-- Reads a grammar and makes its page. -/
def build (settings : Settings) (renderer : Renderer) (fileName source : String)
    (root : Option String) : Except Rejection GrammarPage := do
  let grammar ← Grammar.parse source
  let descriptions ←
    if settings.comments then documentation <$> tokenize source else pure Catalog.empty
  return ofGrammar settings renderer fileName root grammar descriptions

end GrammarPage

end Railroad
