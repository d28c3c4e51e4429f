import Railroad.Proofs.Page.Specification

/-!
# Blocks of a page

A page without links is its template with one block for each rule that is shown.  A block is made
from the name of the file, the rule, what became of its drawing and its description; what the
renderer makes of other rules, and the root that they are selected from, have no part in it.
-/

namespace Railroad

namespace GrammarPage

/-- The rows of a rule, drawn or not. -/
def block (fileName rule : String) (description : Option String) :
    Except RenderError String → String
  | .ok svg => (Entry.drawn rule svg description).text fileName
  | .error reason => (Entry.unavailable rule reason.message).text fileName

section Renderings

variable (renderer : Renderer) (drawn : DrawnGrammar)

end Renderings

variable {fileName : String} {describe : String → Option String} {drawn : DrawnGrammar}

end GrammarPage

end Railroad
