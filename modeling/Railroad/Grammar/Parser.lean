import Railroad.Grammar.Declarations
import Railroad.Reading
import Railroad.Token.Tokenize

/-!
# Reading grammars

The readers below follow the grammar of grammar files, one for each of its notions.  A notion
is entered for good after its first characteristic token; from there on a miss is reported as
an error of that notion.  Trivia is removed before reading begins.
-/

namespace Railroad

namespace Parse

open Reader

def keyword (word : Keyword) : Reader Unit := token (.keyword word)

def mark (sign : Mark) : Reader Unit := token (.mark sign)

/-- A rule name or a token name with its place. -/
def identifier : Reader (Located String) :=
  accept (.part "identifier") fun lexeme =>
    match lexeme.token with
    | .ruleName name | .tokenName name => some ⟨name, lexeme.span⟩
    | _ => none

def stringLiteral : Reader String :=
  accept (.part "string literal") fun lexeme =>
    match lexeme.token with
    | .literal text => some text
    | _ => none

/-- A bracketed text: a character set, or arguments. -/
def bracketed : Reader String :=
  accept (.part "character set") fun lexeme =>
    match lexeme.token with
    | .charSet text => some text
    | _ => none

def actionText : Reader String :=
  accept (.part "action block") fun lexeme =>
    match lexeme.token with
    | .action text => some text
    | _ => none

def optionsBlock : Reader (List Setting) := do
  keyword .options
  let body ← committed actionText
  pure (Declarations.settings body)

def optionValue : Reader String :=
  accept (.part "option value") fun lexeme =>
    match lexeme.token with
    | .ruleName text | .tokenName text | .literal text | .integer text | .action text => some text
    | _ => none

/-- A name with or without a value. -/
def elementOption : Reader Setting := do
  let name ← identifier
  let value ← optional (do mark .equals; optionValue)
  pure ⟨name.value, value.getD ""⟩

/-- Options between angle brackets. -/
def elementOptions : Reader (List Setting) := do
  mark .less
  committed do
    let options ← separated elementOption (mark .comma)
    mark .greater
    pure options

def actionName : Reader String :=
  (identifier.map Located.value).orElse
    (((keyword .lexer).giving "lexer").orElse ((keyword .parser).giving "parser"))

/-- A named action, with a scope in front of its name or without one. -/
def namedAction : Reader NamedAction := do
  mark .atSign
  committed do
    let first ← actionName
    let second ← optional (do mark .doubleColon; actionName)
    let body ← actionText
    match second with
    | some name => pure ⟨some first, name, body⟩
    | none => pure ⟨none, first, body⟩

def literalOrRange : Reader Atom := do
  let first ← stringLiteral
  let last ← optional (do mark .doubleDot; committed stringLiteral)
  match last with
  | some last => pure (.range first last)
  | none => pure (.literal first)

/-- A reference; only one to a parser rule takes arguments. -/
def reference : Reader Atom := do
  let name ← identifier
  match RuleKind.ofName name.value with
  | .parser => do
      let arguments ← optional bracketed
      pure (.reference name arguments)
  | .lexer => pure (.reference name none)

def charSet : Reader Atom := bracketed.map Atom.charSet

/-- What may stand in an excluded set. -/
def setElement : Reader Atom := do
  let atom ← literalOrRange.orElse
    (charSet.orElse (identifier.map fun name => Atom.reference name none))
  let _ ← optional elementOptions
  pure atom

/-- A parenthesized list of set elements. -/
def setBlock : Reader (List Atom) := do
  mark .openParen
  let atoms ← separated setElement (mark .bar)
  mark .closeParen
  pure atoms

/-- A tilde and the set it excludes. -/
def exclusion : Reader Atom := do
  mark .tilde
  committed
    (((setElement.map Atom.excluding).orElse (setBlock.map Atom.excludingAny)).expecting
      "set after `~`")

def wildcard : Reader Atom := (mark .dot).giving Atom.wildcard

/-- An atom; options behind it are read and dropped. -/
def atom : Reader Atom := do
  let atom ← literalOrRange.orElse (charSet.orElse (reference.orElse (exclusion.orElse wildcard)))
  let _ ← optional elementOptions
  pure atom

/-! ## Elements

The readers of this section take the reader of a block as an argument, because a group holds a
block again.
-/

def repetition : Reader Repeat :=
  ((mark .question).giving Repeat.optional).orElse
    (((mark .star).giving Repeat.zeroOrMore).orElse ((mark .plus).giving Repeat.oneOrMore))

/-- A question mark, star or plus; a question mark behind it makes it lazy. -/
def suffix : Reader Suffix := do
  let repeats ← repetition
  let lazy ← optional (mark .question)
  pure ⟨repeats, lazy.isNone⟩

/-- What may stand between the parenthesis and the alternatives of a group. -/
def groupHeader : Reader Unit := do
  let _ ← optional optionsBlock
  let _ ← many namedAction
  mark .colon

def group (block : Reader Block) : Reader Block := do
  mark .openParen
  committed do
    let _ ← optional groupHeader
    let alternatives ← block
    mark .closeParen
    pure alternatives

def atomOrGroup (block : Reader Block) : Reader Content :=
  (atom.map Content.atom).orElse ((group block).map Content.group)

def labelOperator : Reader Bool :=
  ((mark .equals).giving false).orElse ((mark .plusEquals).giving true)

def labeledElement (block : Reader Block) : Reader Element := do
  let name ← identifier
  let additive ← labelOperator
  committed do
    let content ← (atomOrGroup block).expecting "labeled element"
    let suffix ← optional suffix
    pure ⟨content, some ⟨name.value, additive⟩, suffix⟩

def unlabeledElement (block : Reader Block) : Reader Element := do
  let content ← atomOrGroup block
  let suffix ← optional suffix
  pure ⟨content, none, suffix⟩

/-- An action, or a predicate if a question mark follows; options behind it are dropped. -/
def actionElement : Reader Element := do
  let code ← actionText
  let predicate ← optional (mark .question)
  let _ ← optional elementOptions
  pure ⟨.action code predicate.isSome, none, none⟩

def element (block : Reader Block) : Reader Element :=
  (labeledElement block).orElse ((unlabeledElement block).orElse actionElement)

def commandArgument : Reader String := do
  mark .openParen
  let argument ← accept (.part "command argument") fun lexeme =>
    match lexeme.token with
    | .ruleName text | .tokenName text | .integer text => some text
    | _ => none
  mark .closeParen
  pure argument

def command : Reader Command := do
  let name ← (identifier.map Located.value).orElse ((keyword .mode).giving "mode")
  let argument ← optional commandArgument
  pure ⟨name, argument⟩

def commands : Reader (List Command) := do
  mark .arrow
  committed (separated command (mark .comma))

def alternativeLabel : Reader (Located String) := do
  mark .hash
  committed identifier

/-- One alternative, possibly empty. -/
def alternative (block : Reader Block) : Reader Alternative := do
  let options ← optional elementOptions
  let elements ← many (element block)
  let label ← optional alternativeLabel
  let commands ← optional commands
  pure ⟨elements, options.getD [], label.map Located.value, commands.getD []⟩

/-- Alternatives with bars between them, to any depth of groups. -/
def block : Reader Block :=
  recursive fun inner => separated (alternative inner) (mark .bar)

def catchHandler : Reader Handler := do
  keyword .catching
  let argument ← bracketed
  let action ← actionText
  pure ⟨some argument, action⟩

def finalHandler : Reader Handler := do
  keyword .finishing
  let action ← actionText
  pure ⟨none, action⟩

def handler : Reader Handler := catchHandler.orElse finalHandler

def modifier : Reader Keyword :=
  ((keyword .fragment).giving Keyword.fragment).orElse
    (((keyword .publicAccess).giving Keyword.publicAccess).orElse
      (((keyword .privateAccess).giving Keyword.privateAccess).orElse
        ((keyword .protectedAccess).giving Keyword.protectedAccess)))

/-- What may stand between the name and the colon of a rule, in any order. -/
inductive RulePart where
  | options (settings : List Setting)
  | action (declared : NamedAction)

def rulePart : Reader RulePart :=
  (optionsBlock.map RulePart.options).orElse (namedAction.map RulePart.action)

def RulePart.settings : RulePart → List Setting
  | options settings => settings
  | action _ => []

def RulePart.actions : RulePart → List NamedAction
  | options _ => []
  | action declared => [declared]

/-- A rule; the mode it belongs to is not known here. -/
def rule : Reader Rule := do
  let modifiers ← many modifier
  let name ← identifier.expecting "rule name"
  let arguments ← optional bracketed
  let returns ← optional (do keyword .returns; bracketed)
  let throws ← optional (do keyword .throws; separated identifier (mark .comma))
  let locals ← optional (do keyword .locals; bracketed)
  let parts ← many rulePart
  mark .colon
  let body ← block
  (mark .semicolon).expecting "end of rule"
  let handlers ← many handler
  pure {
    name := name
    kind := RuleKind.ofName name.value
    fragment := modifiers.contains .fragment
    mode := none
    modifiers := (modifiers.filter fun modifier => modifier != .fragment).map Keyword.text
    arguments := arguments
    returns := returns
    locals := locals
    throws := (throws.getD []).map Located.value
    options := parts.flatMap RulePart.settings
    actions := parts.flatMap RulePart.actions
    body := body
    handlers := handlers }

/-! ## Grammar files -/

/-- What may stand between the header and the first rule. -/
inductive Prequel where
  | options (settings : List Setting)
  | imports (names : List String)
  | tokens (names : List String)
  | channels (names : List String)
  | action (declared : NamedAction)

namespace Prequel

def optionSettings : Prequel → List Setting
  | options settings => settings
  | _ => []

def importNames : Prequel → List String
  | imports names => names
  | _ => []

def tokenNames : Prequel → List String
  | tokens names => names
  | _ => []

def channelNames : Prequel → List String
  | channels names => names
  | _ => []

def namedActions : Prequel → List NamedAction
  | action declared => [declared]
  | _ => []

end Prequel

/-- An imported grammar; of an alias only the grammar it stands for is kept. -/
def importedGrammar : Reader String := do
  let first ← identifier
  let target ← optional (do mark .equals; identifier)
  pure (target.getD first).value

def importList : Reader (List String) := do
  keyword .importing
  committed do
    let names ← separated importedGrammar (mark .comma)
    mark .semicolon
    pure names

def nameBlock (word : Keyword) : Reader (List String) := do
  keyword word
  let body ← committed actionText
  pure (Declarations.names body)

def prequel : Reader Prequel :=
  (optionsBlock.map Prequel.options).orElse
    ((importList.map Prequel.imports).orElse
      (((nameBlock .tokens).map Prequel.tokens).orElse
        (((nameBlock .channels).map Prequel.channels).orElse
          (namedAction.map Prequel.action))))

def modeDeclaration : Reader String := do
  keyword .mode
  committed do
    let name ← identifier
    mark .semicolon
    pure name.value

/-- A file goes on with mode declarations and rules up to its end. -/
inductive Section where
  | mode (name : String)
  | rule (rule : Rule)

def fileSection : Reader Section :=
  (modeDeclaration.map Section.mode).orElse (committed (rule.map Section.rule))

/-- Puts every rule into the mode declared last before it. -/
def rulesInModes (mode : Option String) : List Section → List Rule
  | [] => []
  | .mode name :: rest => rulesInModes (some name) rest
  | .rule rule :: rest => { rule with mode := mode } :: rulesInModes mode rest

def modeNames : List Section → List String
  | [] => []
  | .mode name :: rest => name :: modeNames rest
  | .rule _ :: rest => modeNames rest

def grammarKind : Reader GrammarKind :=
  ((keyword .lexer).giving GrammarKind.lexer).orElse
    ((keyword .parser).giving GrammarKind.parser)

def header : Reader (GrammarKind × Located String) := do
  let kind ← optional grammarKind
  (keyword .grammar).expecting "grammar declaration"
  committed do
    let name ← identifier
    mark .semicolon
    pure (kind.getD .combined, name)

def grammar : Reader Grammar := do
  let (kind, name) ← header
  let prequels ← many prequel
  let sections ← exhaust fileSection
  pure {
    kind := kind
    name := name
    options := prequels.flatMap Prequel.optionSettings
    imports := prequels.flatMap Prequel.importNames
    tokens := prequels.flatMap Prequel.tokenNames
    channels := prequels.flatMap Prequel.channelNames
    actions := prequels.flatMap Prequel.namedActions
    rules := rulesInModes none sections
    modes := modeNames sections }

/-- The lexemes between the opening of the construct and the place where reading stopped. -/
def consumedSince (opened : Nat) (setback : Setback) (lexemes : List Lexeme) : List Lexeme :=
  (lexemes.drop (lexemes.length - opened)).take (opened - setback.rest.length)

/-- A label over the construct that had been entered. -/
def constructLabel (setback : Setback) (lexemes : List Lexeme) : List SourceLabel :=
  match setback.opened with
  | none => []
  | some opened =>
      let consumed := consumedSince opened setback lexemes
      match consumed.head?, consumed.getLast? with
      | some first, some last =>
          [⟨.secondary, first.span.union last.span, "while parsing this"⟩]
      | _, _ => []

def expectations (setback : Setback) : String :=
  match setback.expected with
  | [] => "unexpected token or end of input"
  | expected => String.intercalate " → " (expected.map Expectation.text)

/-- The diagnostic for lexemes that are no grammar. -/
def diagnose (lexemes : List Lexeme) (setback : Setback) : Diagnostic :=
  match lexemes.getLast? with
  | none => {
      severity := .error
      code := some .incompleteInput
      message := "expected a grammar declaration"
      labels := [⟨.primary, .origin, "empty input"⟩]
      help := some "start the file with `grammar Name;`" }
  | some last =>
      match setback.rest with
      | [] => {
          severity := .error
          code := some .incompleteInput
          message := "unexpected end of input: " ++ expectations setback
          labels := [⟨.primary, .between last.span.stop last.span.stop, "input ends here"⟩]
          help := some "a rule or block is left open" }
      | offending :: _ => {
          severity := .error
          code := some .unexpectedToken
          message := "unexpected token: " ++ expectations setback
          labels :=
            ⟨.primary, offending.span, "unexpected token"⟩ :: constructLabel setback lexemes
          help := some "check syntax and token positioning" }

end Parse

/-- The grammar that the lexemes spell, trivia left out, or why there is none. -/
def Grammar.ofLexemes (lexemes : List Lexeme) : Except Diagnostic Grammar :=
  match Parse.grammar (significant lexemes) with
  | .done grammar _ => .ok grammar
  | .missed setback | .failed setback => .error (Parse.diagnose (significant lexemes) setback)

/-- The grammar that a source spells; faults of scanning are reported before those of parsing. -/
def Grammar.parse (source : String) : Except Rejection Grammar :=
  match tokenize source with
  | .error rejection => .error rejection
  | .ok lexemes =>
      match Grammar.ofLexemes lexemes with
      | .ok grammar => .ok grammar
      | .error diagnostic => .error ⟨[diagnostic]⟩

end Railroad
