import Railroad.Proofs.Page.CrossLinks

/-!
# Rows of errors

The row of a rule that could not be drawn has a tag of its own.  No other part of a page brings
such a tag into it: neither the template nor a drawing, a name, a title, a description or a link.
-/

namespace Railroad

namespace Page

/-- The page has a row for a rule that could not be drawn. -/
def HasErrorRow (html : String) : Prop := "<tr class=\"render-error\">".toList <:+: html.toList

/-- A page with the tags of a frame has no row of an error. -/
theorem text_errorless {page : Page} {shown : List Char → Prop}
    (marked : ∀ entry ∈ page.entries, entry.IsMarked IsFrameTag shown) (isRule : String → Bool) :
    ¬HasErrorRow (page.text isRule) := by
  have opens (name : String) : linkTag page.fileName name ≠ errorTag := by
    rw [linkTag_eq]
    exact fun same => absurd (List.cons.inj same).1 (by decide)
  have captions (attributes : List Char) : "text ".toList ++ attributes ≠ errorTag :=
    fun same => absurd (List.cons.inj (List.cons.inj same).2).1 (by decide)
  have tags : Tagged (· ≠ errorTag) (page.text isRule).toList :=
    text_tagged (unlinked_marked (fun _ => id) marked) (fun _ => id) (fun _ => And.right) captions
      fun name _ _ _ _ => opens name
  rintro ⟨front, behind, found⟩
  have split : (page.text isRule).toList = front ++ '<' :: (errorTag ++ '>' :: behind) := by
    rw [← found, List.append_assoc]
    rfl
  obtain ⟨body, rest, ends, closed, other⟩ := tags.allowed_of_split split
  have inside : '>' ∉ errorTag := by decide
  exact other (append_cons_inj ends inside closed.2).1.symm

end Page

namespace GrammarPage

/-- Every rule of the page that has a diagram is drawn. -/
structure IsDrawn (page : GrammarPage) : Prop where
  failures : page.failures = []
  errorless : ¬Page.HasErrorRow page.html

theorem svgRenderer_ok {metrics : Metrics Float32} (usable : metrics.unusable? = none)
    (diagram : Diagram) : svgRenderer metrics diagram = .ok (diagram.svg metrics).render := by
  rw [svgRenderer, usable]

/-- With usable measures every diagram of a page is drawn. -/
theorem build_isDrawn {settings : Settings} {fileName source : String} {root : Option String}
    {page : GrammarPage} {metrics : Metrics Float32} (usable : metrics.unusable? = none)
    (built : build settings (svgRenderer metrics) fileName source root = .ok page) :
    page.IsDrawn := by
  cases parsed : Grammar.parse source with
  | error rejection =>
      rw [build, parsed] at built
      cases built
  | ok grammar =>
      rw [build_described parsed] at built
      cases built
      constructor
      · refine List.filterMap_eq_nil_iff.mpr fun rendering listed => ?_
        obtain ⟨rule, -, diagram, -, rfl⟩ := mem_renderings.mp listed
        rw [Rendering.failure?, svgRenderer_ok usable diagram]
      · rw [ofGrammar_html]
        exact Page.text_errorless (contents_marked parsed settings metrics fileName root _
          (fun _ => id) fun refused => absurd usable refused) _

end GrammarPage

end Railroad
