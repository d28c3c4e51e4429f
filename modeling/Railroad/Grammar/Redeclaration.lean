import Railroad.Grammar.Basic
import Railroad.Source.Diagnostic

/-!
# Rules declared more than once

Only the last declaration of a rule is drawn.  Every declaration after the first of its name is
reported, with the first one as its context.
-/

namespace Railroad

/-- The warning for a name declared again. -/
def redeclared (name : String) (again first : Span) : Diagnostic where
  severity := .warning
  code := none
  message := "rule `" ++ name ++ "` is declared more than once"
  labels := [⟨.primary, again, "declared again here"⟩, ⟨.secondary, first, "first declared here"⟩]
  help := some "only the last declaration is drawn"

/-- Warnings for the names that follow, given the names already declared. -/
def redeclarations (declared : List (Located String)) : List (Located String) → List Diagnostic
  | [] => []
  | name :: rest =>
      match declared.find? fun earlier => earlier.value == name.value with
      | some first => redeclared name.value name.span first.span :: redeclarations declared rest
      | none => redeclarations (declared ++ [name]) rest

/-- One warning for every declaration that is not the first of its name. -/
def Grammar.warnings (grammar : Grammar) : List Diagnostic :=
  redeclarations [] (grammar.rules.map Rule.name)

end Railroad
