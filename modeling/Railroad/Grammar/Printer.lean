import Railroad.Grammar.Basic

/-!
# Grammar text

Every part of a grammar has a written form.  Blanks and comments are not reproduced, and neither
is what stands around a rule body except for its name and the fragment modifier.
-/

namespace Railroad

def GrammarKind.text : GrammarKind → String
  | combined => "grammar"
  | lexer => "lexer grammar"
  | parser => "parser grammar"

def Suffix.text (suffix : Suffix) : String :=
  let sign := match suffix.repeats with
    | .optional => "?"
    | .zeroOrMore => "*"
    | .oneOrMore => "+"
  if suffix.greedy then sign else sign ++ "?"

def Command.text (command : Command) : String :=
  match command.argument with
  | some argument => command.name ++ "(" ++ argument ++ ")"
  | none => command.name

def ElementLabel.text (label : ElementLabel) : String :=
  label.name ++ (if label.additive then "+=" else "=")

mutual

def Atom.text : Atom → String
  | .literal text | .charSet text => text
  | .range first last => first ++ ".." ++ last
  | .reference name arguments => name.value ++ arguments.getD ""
  | .excluding operand => "~" ++ operand.text
  | .excludingAny operands => "~(" ++ " | ".intercalate (atomTexts operands) ++ ")"
  | .wildcard => "."

def atomTexts : List Atom → List String
  | [] => []
  | atom :: rest => atom.text :: atomTexts rest

end

mutual

def Content.text : Content → String
  | .atom atom => atom.text
  | .group block => "(" ++ " | ".intercalate (alternativeTexts block) ++ ")"
  | .action code predicate => if predicate then code ++ "?" else code

def Element.text : Element → String
  | ⟨content, label, suffix⟩ =>
      (label.map ElementLabel.text).getD "" ++ content.text ++ (suffix.map Suffix.text).getD ""

def elementTexts : List Element → List String
  | [] => []
  | element :: rest => element.text :: elementTexts rest

def Alternative.text : Alternative → String
  | ⟨elements, _, label, commands⟩ =>
      " ".intercalate (elementTexts elements) ++
        (label.map fun name => " # " ++ name).getD "" ++
        (if commands.isEmpty then "" else " -> " ++ ", ".intercalate (commands.map Command.text))

def alternativeTexts : List Alternative → List String
  | [] => []
  | alternative :: rest => alternative.text :: alternativeTexts rest

end

/-- The written form of a block without parentheses. -/
def blockText (block : Block) : String := " | ".intercalate (alternativeTexts block)

def Rule.text (rule : Rule) : String :=
  (if rule.fragment then "fragment " else "") ++ rule.name.value ++ " : " ++ blockText rule.body ++
    " ;"

/-- The grammar header and one line for each rule. -/
def Grammar.text (grammar : Grammar) : String :=
  grammar.kind.text ++ " " ++ grammar.name.value ++ ";\n" ++
    String.join (grammar.rules.map fun rule => rule.text ++ "\n")

end Railroad
