import Railroad.Drawing.Metrics

/-!
# Settings

What a configuration may change: the measures of the drawings and the looks of the page.
-/

namespace Railroad

structure Settings where
  metrics : Metrics Float32
  /-- The title of the page, where it is not the name of the grammar. -/
  title : Option String
  /-- Whether names drawn in a diagram lead to the rows of their rules. -/
  crossLinks : Bool
  /-- Whether documentation comments are shown below the diagrams. -/
  comments : Bool

namespace Settings

def standard : Settings := ⟨.standard, none, true, true⟩

end Settings

end Railroad
