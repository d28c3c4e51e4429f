/-!
# Diagrams

A railroad diagram is a tree of sequences, choices, options and loops over labelled leaves.
Labels are kept in the escaped form in which they stand between the quotes of the diagram
specification, the written form of a diagram.
-/

namespace Railroad

inductive Diagram where
  /-- Items drawn one after another. -/
  | sequence (items : List Diagram)
  /-- Branches, of which the one numbered `selected` is drawn on the main line. -/
  | choice (selected : Nat) (branches : List Diagram)
  | optional (item : Diagram)
  | zeroOrMore (item : Diagram)
  | oneOrMore (item : Diagram)
  /-- Text that stands for itself, drawn in a rounded box. -/
  | terminal (label : String)
  /-- A reference to a rule, drawn in a square box. -/
  | nonTerminal (label : String)
  /-- Text on the track without a box. -/
  | comment (label : String)
  deriving Repr

namespace Diagram

def kindName : Diagram → String
  | sequence _ => "Sequence"
  | choice .. => "Choice"
  | optional _ => "Optional"
  | zeroOrMore _ => "ZeroOrMore"
  | oneOrMore _ => "OneOrMore"
  | terminal _ => "Terminal"
  | nonTerminal _ => "NonTerminal"
  | comment _ => "Comment"

/-- The label of a leaf. -/
def label? : Diagram → Option String
  | terminal label | nonTerminal label | comment label => some label
  | _ => none

/-- The items directly below a node; leaves have none. -/
def children : Diagram → List Diagram
  | sequence items => items
  | choice _ branches => branches
  | optional item | zeroOrMore item | oneOrMore item => [item]
  | terminal _ | nonTerminal _ | comment _ => []

mutual

/-- The written form of a node. -/
def nodeText : Diagram → String
  | sequence items => "Sequence(" ++ itemsText items ++ ")"
  | choice selected branches => "Choice(" ++ toString selected ++ branchesText branches ++ ")"
  | optional item => "Optional(" ++ item.nodeText ++ ")"
  | zeroOrMore item => "ZeroOrMore(" ++ item.nodeText ++ ")"
  | oneOrMore item => "OneOrMore(" ++ item.nodeText ++ ")"
  | terminal label => "Terminal('" ++ label ++ "')"
  | nonTerminal label => "NonTerminal('" ++ label ++ "')"
  | comment label => "Comment('" ++ label ++ "')"

/-- Nodes with commas between them. -/
def itemsText : List Diagram → String
  | [] => ""
  | item :: rest => item.nodeText ++ branchesText rest

/-- Nodes with a comma in front of each. -/
def branchesText : List Diagram → String
  | [] => ""
  | branch :: rest => ", " ++ branch.nodeText ++ branchesText rest

end

/-- The specification of a whole diagram. -/
def text (diagram : Diagram) : String := "Diagram(" ++ diagram.nodeText ++ ")"

mutual

/-- All nodes from the root down, each before its children. -/
def preorder : Diagram → List Diagram
  | sequence items => sequence items :: preorderAll items
  | choice selected branches => choice selected branches :: preorderAll branches
  | optional item => optional item :: item.preorder
  | zeroOrMore item => zeroOrMore item :: item.preorder
  | oneOrMore item => oneOrMore item :: item.preorder
  | terminal label => [terminal label]
  | nonTerminal label => [nonTerminal label]
  | comment label => [comment label]

def preorderAll : List Diagram → List Diagram
  | [] => []
  | item :: rest => item.preorder ++ preorderAll rest

end

end Diagram

end Railroad
