import Railroad.Source.Span
import Railroad.Text.Classes

/-!
# Grammars

The tree of a grammar file.  What shapes a diagram is kept in structured form; what matters to
code generation only is kept as source text.  Two trees agree when they differ in nothing but
the places of their names.
-/

namespace Railroad

/-- A `name = value` pair. -/
structure Setting where
  name : String
  value : String
  deriving DecidableEq, Repr

/-- A named action; its body keeps its braces. -/
structure NamedAction where
  scope : Option String
  name : String
  body : String
  deriving DecidableEq, Repr

/-- Parser rules have lowercase names, lexer rules uppercase ones. -/
inductive RuleKind where
  | parser
  | lexer
  deriving DecidableEq, Repr

def RuleKind.ofName (name : String) : RuleKind :=
  if Text.startsUppercase name then .lexer else .parser

/-- The smallest parts of a rule.  Literals and sets keep their quotes and brackets. -/
inductive Atom where
  | literal (text : String)
  | range (first last : String)
  | charSet (text : String)
  | reference (name : Located String) (arguments : Option String)
  | excluding (operand : Atom)
  | excludingAny (operands : List Atom)
  | wildcard
  deriving Repr

/-- A label in front of an element; an additive one collects every match. -/
structure ElementLabel where
  name : String
  additive : Bool
  deriving DecidableEq, Repr

inductive Repeat where
  | optional
  | zeroOrMore
  | oneOrMore
  deriving DecidableEq, Repr

structure Suffix where
  repeats : Repeat
  greedy : Bool
  deriving DecidableEq, Repr

/-- A command at the end of a lexer alternative. -/
structure Command where
  name : String
  argument : Option String
  deriving DecidableEq, Repr

mutual

/-- What an element matches. -/
inductive Content where
  | atom (atom : Atom)
  | group (block : List Alternative)
  /-- An embedded action, or a predicate. -/
  | action (code : String) (predicate : Bool)

/-- One element of an alternative. -/
structure Element where
  content : Content
  label : Option ElementLabel
  suffix : Option Suffix

/-- A possibly empty sequence of elements with what stands around it. -/
structure Alternative where
  elements : List Element
  options : List Setting
  label : Option String
  commands : List Command

end

/-- The alternatives of a rule or of a parenthesized group. -/
abbrev Block := List Alternative

/-- What is run when a rule fails, or in any case if there is no argument. -/
structure Handler where
  argument : Option String
  action : String
  deriving DecidableEq, Repr

structure Rule where
  name : Located String
  kind : RuleKind
  fragment : Bool
  /-- The mode in which the rule was declared. -/
  mode : Option String
  modifiers : List String
  arguments : Option String
  returns : Option String
  locals : Option String
  throws : List String
  options : List Setting
  actions : List NamedAction
  body : Block
  handlers : List Handler

inductive GrammarKind where
  | combined
  | lexer
  | parser
  deriving DecidableEq, Repr

structure Grammar where
  kind : GrammarKind
  name : Located String
  options : List Setting
  imports : List String
  tokens : List String
  channels : List String
  actions : List NamedAction
  /-- All rules in the order of their declarations. -/
  rules : List Rule
  /-- The modes in the order of their declarations. -/
  modes : List String

/-- The first rule declared under a name. -/
def Grammar.rule? (grammar : Grammar) (name : String) : Option Rule :=
  grammar.rules.find? fun rule => rule.name.value == name

/-- The number of the first rule declared under a name. -/
def Grammar.ruleIndex (grammar : Grammar) (name : String) : Nat :=
  grammar.rules.findIdx fun rule => rule.name.value == name

mutual

def Atom.agrees : Atom → Atom → Bool
  | .literal first, .literal second => first == second
  | .range first last, .range otherFirst otherLast => first == otherFirst && last == otherLast
  | .charSet first, .charSet second => first == second
  | .reference name arguments, .reference otherName otherArguments =>
      name.value == otherName.value && arguments == otherArguments
  | .excluding first, .excluding second => first.agrees second
  | .excludingAny first, .excludingAny second => atomsAgree first second
  | .wildcard, .wildcard => true
  | _, _ => false

def atomsAgree : List Atom → List Atom → Bool
  | [], [] => true
  | first :: rest, second :: others => first.agrees second && atomsAgree rest others
  | _, _ => false

end

mutual

def Content.agrees : Content → Content → Bool
  | .atom first, .atom second => first.agrees second
  | .group first, .group second => blocksAgree first second
  | .action code predicate, .action otherCode otherPredicate =>
      code == otherCode && predicate == otherPredicate
  | _, _ => false

def Element.agrees : Element → Element → Bool
  | ⟨content, label, suffix⟩, ⟨otherContent, otherLabel, otherSuffix⟩ =>
      content.agrees otherContent && label == otherLabel && suffix == otherSuffix

def elementsAgree : List Element → List Element → Bool
  | [], [] => true
  | first :: rest, second :: others => first.agrees second && elementsAgree rest others
  | _, _ => false

def Alternative.agrees : Alternative → Alternative → Bool
  | ⟨elements, options, label, commands⟩, ⟨otherElements, otherOptions, otherLabel, otherCommands⟩ =>
      elementsAgree elements otherElements && options == otherOptions && label == otherLabel &&
        commands == otherCommands

/-- Whether two blocks differ in nothing but the places of names. -/
def blocksAgree : List Alternative → List Alternative → Bool
  | [], [] => true
  | first :: rest, second :: others => first.agrees second && blocksAgree rest others
  | _, _ => false

end

def Rule.agrees (first second : Rule) : Bool :=
  first.name.value == second.name.value && first.kind == second.kind &&
    first.fragment == second.fragment && first.mode == second.mode &&
    first.modifiers == second.modifiers && first.arguments == second.arguments &&
    first.returns == second.returns && first.locals == second.locals &&
    first.throws == second.throws && first.options == second.options &&
    first.actions == second.actions && blocksAgree first.body second.body &&
    first.handlers == second.handlers

def rulesAgree : List Rule → List Rule → Bool
  | [], [] => true
  | first :: rest, second :: others => first.agrees second && rulesAgree rest others
  | _, _ => false

/-- Whether two grammars differ in nothing but the places of names. -/
def Grammar.agrees (first second : Grammar) : Bool :=
  first.kind == second.kind && first.name.value == second.name.value &&
    first.options == second.options && first.imports == second.imports &&
    first.tokens == second.tokens && first.channels == second.channels &&
    first.actions == second.actions && rulesAgree first.rules second.rules &&
    first.modes == second.modes

end Railroad
