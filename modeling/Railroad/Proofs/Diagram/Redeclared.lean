import Railroad.Grammar.Redeclaration
import Railroad.Proofs.Diagram.Edges

/-!
# Rules declared again

Diagrams, references and warnings are collected from the same declarations by different rules: a
diagram is replaced, references add up, and a warning is left for every declaration but the first
of its name.  So each declaration is accounted for, by a diagram of its name or by a warning.
-/

namespace Railroad

/-- The warning points at the declaration and at the first one of its name. -/
def WarnsOf (rules : List Rule) (rule : Rule) (warning : Diagnostic) : Prop :=
  ∃ first, rules.find? (fun earlier => earlier.name.value == rule.name.value) = some first ∧
    warning = redeclared rule.name.value rule.name.span first.name.span

theorem WarnsOf.append {rules : List Rule} {rule : Rule} {warning : Diagnostic}
    (warns : WarnsOf rules rule warning) (more : List Rule) :
    WarnsOf (rules ++ more) rule warning := by
  obtain ⟨first, found, same⟩ := warns
  exact ⟨first, by rw [List.find?_append, found, Option.some_or], same⟩

theorem DrawnGrammar.keys_addRules (names : List String) {drawn : DrawnGrammar}
    (before : drawn.diagrams.keys = names.eraseDups) (rules : List Rule) :
    (rules.foldl addRule drawn).diagrams.keys =
      (names ++ rules.map fun rule => rule.name.value).eraseDups := by
  induction rules generalizing drawn names with
  | nil => rw [List.map_nil, List.append_nil]; exact before
  | cons rule rest ih =>
      have next : (drawn.addRule rule).diagrams.keys = (names ++ [rule.name.value]).eraseDups := by
        rw [addRule, Catalog.keys_put, before, eraseDups_concat]
        simp only [List.mem_eraseDups]
      rw [List.map_cons, List.append_cons]
      exact ih _ next

namespace Grammar

theorem drawn_keys (grammar : Grammar) :
    grammar.drawn.diagrams.keys = (grammar.rules.map fun rule => rule.name.value).eraseDups :=
  DrawnGrammar.keys_addRules [] rfl grammar.rules

end Grammar

end Railroad
