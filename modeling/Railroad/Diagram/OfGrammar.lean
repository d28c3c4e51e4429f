import Railroad.Diagram.Basic
import Railroad.Diagram.Label
import Railroad.Diagram.References
import Railroad.Grammar.Basic

/-!
# Diagrams of grammars

Every rule body has a diagram and a list of the names it refers to.  A rule declared again keeps
its place and gets the diagram of its last body, while its references add up.
-/

namespace Railroad

/-- Shown for an empty alternative and for an embedded action. -/
def epsilonLabel : String := "epsilon"

def predicateLabel : String := "predicate"

def exclusionLabel : String := "not"

def anyCharacterLabel : String := "any char"

def anyTokenLabel : String := "any token"

/-- What matches anything: one character in a lexer rule, one token in a parser rule. -/
def wildcardDiagram : RuleKind → Diagram
  | .lexer => .terminal anyCharacterLabel
  | .parser => .nonTerminal anyTokenLabel

/-- Lazy repetitions are drawn like greedy ones. -/
def Suffix.diagram (suffix : Option Suffix) (item : Diagram) : Diagram :=
  match suffix.map Suffix.repeats with
  | none => item
  | some .optional => .optional item
  | some .zeroOrMore => .zeroOrMore item
  | some .oneOrMore => .oneOrMore item

mutual

def Atom.diagram (kind : RuleKind) : Atom → Diagram
  | .literal text => .terminal (Label.escapeLiteral text)
  | .range first last =>
      .terminal (Label.escapeLiteral first ++ " .. " ++ Label.escapeLiteral last)
  | .charSet text => .terminal (Label.escape text)
  | .reference name _ => .nonTerminal (Label.escape name.value)
  | .excluding operand => .sequence [.comment exclusionLabel, operand.diagram kind]
  | .excludingAny operands =>
      .sequence [.comment exclusionLabel, .choice 0 (atomDiagrams kind operands)]
  | .wildcard => wildcardDiagram kind

def atomDiagrams (kind : RuleKind) : List Atom → List Diagram
  | [] => []
  | atom :: rest => atom.diagram kind :: atomDiagrams kind rest

end

mutual

def Content.diagram (kind : RuleKind) : Content → Diagram
  | .atom atom => atom.diagram kind
  | .group block => .choice 0 (alternativeDiagrams kind block)
  | .action _ predicate => .comment (if predicate then predicateLabel else epsilonLabel)

def Element.diagram (kind : RuleKind) : Element → Diagram
  | ⟨content, _, suffix⟩ => Suffix.diagram suffix (content.diagram kind)

def elementDiagrams (kind : RuleKind) : List Element → List Diagram
  | [] => []
  | element :: rest => element.diagram kind :: elementDiagrams kind rest

/-- An empty alternative is shown as a comment. -/
def Alternative.diagram (kind : RuleKind) : Alternative → Diagram
  | ⟨[], _, _, _⟩ => .comment epsilonLabel
  | ⟨element :: rest, _, _, _⟩ =>
      .sequence (element.diagram kind :: elementDiagrams kind rest)

def alternativeDiagrams (kind : RuleKind) : List Alternative → List Diagram
  | [] => []
  | alternative :: rest => alternative.diagram kind :: alternativeDiagrams kind rest

end

/-- The diagram of a rule body: a choice of its alternatives. -/
def blockDiagram (kind : RuleKind) (block : Block) : Diagram :=
  .choice 0 (alternativeDiagrams kind block)

mutual

def Atom.references : Atom → List String
  | .reference name _ => [name.value]
  | .excluding operand => operand.references
  | .excludingAny operands => atomReferences operands
  | .literal _ | .range _ _ | .charSet _ | .wildcard => []

def atomReferences : List Atom → List String
  | [] => []
  | atom :: rest => atom.references ++ atomReferences rest

end

mutual

def Content.references : Content → List String
  | .atom atom => atom.references
  | .group block => blockReferences block
  | .action _ _ => []

def Element.references : Element → List String
  | ⟨content, _, _⟩ => content.references

def elementReferences : List Element → List String
  | [] => []
  | element :: rest => element.references ++ elementReferences rest

def Alternative.references : Alternative → List String
  | ⟨elements, _, _, _⟩ => elementReferences elements

/-- The names that a block refers to, from left to right. -/
def blockReferences : List Alternative → List String
  | [] => []
  | alternative :: rest => alternative.references ++ blockReferences rest

end

/-- The diagrams of a grammar and the graph of its references. -/
structure DrawnGrammar where
  diagrams : Catalog String Diagram
  graph : ReferenceGraph

namespace DrawnGrammar

def empty : DrawnGrammar := ⟨.empty, .empty⟩

def addRule (drawn : DrawnGrammar) (rule : Rule) : DrawnGrammar where
  diagrams := drawn.diagrams.put rule.name.value (blockDiagram rule.kind rule.body)
  graph := drawn.graph.addEdges rule.name.value (blockReferences rule.body)

def diagram? (drawn : DrawnGrammar) (rule : String) : Option Diagram := drawn.diagrams.get? rule

/-- The names to show for an optional root. -/
def select (drawn : DrawnGrammar) (root : Option String) : List String :=
  drawn.graph.select drawn.diagrams.keys root

def specificationLine (drawn : DrawnGrammar) (rule : String) : Option String :=
  (drawn.diagram? rule).map fun diagram => rule ++ " = " ++ diagram.text ++ "\n"

/-- One line for each of the rules that has a diagram. -/
def specification (drawn : DrawnGrammar) (rules : List String) : String :=
  String.join (rules.filterMap drawn.specificationLine)

end DrawnGrammar

/-- Draws every rule of a grammar. -/
def Grammar.drawn (grammar : Grammar) : DrawnGrammar :=
  grammar.rules.foldl DrawnGrammar.addRule .empty

end Railroad
