import Railroad.Grammar.Parser
import Railroad.Proofs.Reading.Unguarded

/-!
# Progress of the readers of grammar files

Every reader of the grammar language has a plan, so it does without the guards of its loops and of
its recursion.  An alternative may be empty, but a loop over alternatives goes on behind a bar
only.  The reader of blocks calls itself behind the parenthesis of a group, and so on less input.
-/

namespace Railroad.Parse

open Reader

variable {free : Bool}

/-- One round of the reader of blocks. -/
def alternatives (inner : Reader Block) : Reader Block := separated (alternative inner) (mark .bar)

def keywordPlan (word : Keyword) : Plan alternatives free true fun _ => keyword word := .accept _ _

def markPlan (sign : Mark) : Plan alternatives free true fun _ => mark sign := .accept _ _

def identifierPlan : Plan alternatives free true fun _ => identifier := .accept _ _

def stringLiteralPlan : Plan alternatives free true fun _ => stringLiteral := .accept _ _

def bracketedPlan : Plan alternatives free true fun _ => bracketed := .accept _ _

def actionTextPlan : Plan alternatives free true fun _ => actionText := .accept _ _

def optionsBlockPlan : Plan alternatives free true fun _ => optionsBlock :=
  .andThen (keywordPlan .options) fun _ => .andThen (.committed actionTextPlan) fun _ => .succeed _

def elementOptionPlan : Plan alternatives free true fun _ => elementOption :=
  .andThen identifierPlan fun _ =>
    .andThen (.optional (.andThen (markPlan .equals) fun _ => .accept _ _)) fun _ => .succeed _

def elementOptionsPlan : Plan alternatives free true fun _ => elementOptions :=
  .andThen (markPlan .less) fun _ => .committed
    (.andThen (.separated (fun _ => elementOptionPlan) fun _ => markPlan .comma) fun _ =>
      .andThen (markPlan .greater) fun _ => .succeed _)

def actionNamePlan : Plan alternatives free true fun _ => actionName :=
  .orElse (.map identifierPlan _)
    (.orElse (.giving (keywordPlan .lexer) _) (.giving (keywordPlan .parser) _))

/-- The first name of an action is its scope if there is a second one. -/
def namedActionEndPlan (first body : String) :
    ∀ second : Option String, Plan alternatives free false fun _ =>
      match second with
      | some name => Reader.succeed (NamedAction.mk (some first) name body)
      | none => Reader.succeed (NamedAction.mk none first body)
  | some _ => .succeed _
  | none => .succeed _

def namedActionPlan : Plan alternatives free true fun _ => namedAction :=
  .andThen (markPlan .atSign) fun _ => .committed
    (.andThen actionNamePlan fun first =>
      .andThen (.optional (.andThen (markPlan .doubleColon) fun _ => actionNamePlan)) fun second =>
        .andThen actionTextPlan fun body => namedActionEndPlan first body second)

/-- A literal ends as a range if an upper end stands behind it. -/
def rangeEndPlan (first : String) :
    ∀ last : Option String, Plan alternatives free false fun _ =>
      match last with
      | some last => Reader.succeed (Atom.range first last)
      | none => Reader.succeed (Atom.literal first)
  | some _ => .succeed _
  | none => .succeed _

def literalOrRangePlan : Plan alternatives free true fun _ => literalOrRange :=
  .andThen stringLiteralPlan fun first =>
    .andThen (.optional (.andThen (markPlan .doubleDot) fun _ => .committed stringLiteralPlan))
      (rangeEndPlan first)

/-- Behind the name of a parser rule there may be arguments. -/
def referenceEndPlan (name : Located String) :
    ∀ kind : RuleKind, Plan alternatives free false fun _ =>
      match kind with
      | .parser => (Reader.optional bracketed).andThen fun arguments =>
          Reader.succeed (Atom.reference name arguments)
      | .lexer => Reader.succeed (Atom.reference name none)
  | .parser => .andThen (.optional bracketedPlan) fun _ => .succeed _
  | .lexer => .succeed _

def referencePlan : Plan alternatives free true fun _ => reference :=
  .andThen identifierPlan fun name => referenceEndPlan name (RuleKind.ofName name.value)

def charSetPlan : Plan alternatives free true fun _ => charSet := .map bracketedPlan _

def setElementPlan : Plan alternatives free true fun _ => setElement :=
  .andThen (.orElse literalOrRangePlan (.orElse charSetPlan (.map identifierPlan _))) fun _ =>
    .andThen (.optional elementOptionsPlan) fun _ => .succeed _

def setBlockPlan : Plan alternatives free true fun _ => setBlock :=
  .andThen (markPlan .openParen) fun _ =>
    .andThen (.separated (fun _ => setElementPlan) fun _ => markPlan .bar) fun _ =>
      .andThen (markPlan .closeParen) fun _ => .succeed _

def exclusionPlan : Plan alternatives free true fun _ => exclusion :=
  .andThen (markPlan .tilde) fun _ => .committed
    (.expecting (.orElse (.map setElementPlan _) (.map setBlockPlan _)) _)

def atomPlan : Plan alternatives free true fun _ => atom :=
  .andThen (.orElse literalOrRangePlan (.orElse charSetPlan (.orElse referencePlan
    (.orElse exclusionPlan (.giving (markPlan .dot) _))))) fun _ =>
      .andThen (.optional elementOptionsPlan) fun _ => .succeed _

def repetitionPlan : Plan alternatives free true fun _ => repetition :=
  .orElse (.giving (markPlan .question) _)
    (.orElse (.giving (markPlan .star) _) (.giving (markPlan .plus) _))

def suffixPlan : Plan alternatives free true fun _ => suffix :=
  .andThen repetitionPlan fun _ => .andThen (.optional (markPlan .question)) fun _ => .succeed _

def groupHeaderPlan : Plan alternatives free true fun _ => groupHeader :=
  .andThen (.optional optionsBlockPlan) fun _ =>
    .andThen (.many namedActionPlan rfl) fun _ => markPlan .colon

def groupPlan : Plan alternatives free true group :=
  .andThen (markPlan .openParen) fun _ => .committed
    (.andThen (.optional groupHeaderPlan) fun _ =>
      .andThen .call fun _ => .andThen (markPlan .closeParen) fun _ => .succeed _)

def atomOrGroupPlan : Plan alternatives free true atomOrGroup :=
  .orElse (.map atomPlan _) (.map groupPlan _)

def labelOperatorPlan : Plan alternatives free true fun _ => labelOperator :=
  .orElse (.giving (markPlan .equals) _) (.giving (markPlan .plusEquals) _)

def labeledElementPlan : Plan alternatives free true labeledElement :=
  .andThen identifierPlan fun _ => .andThen labelOperatorPlan fun _ => .committed
    (.andThen (.expecting atomOrGroupPlan _) fun _ =>
      .andThen (.optional suffixPlan) fun _ => .succeed _)

def unlabeledElementPlan : Plan alternatives free true unlabeledElement :=
  .andThen atomOrGroupPlan fun _ => .andThen (.optional suffixPlan) fun _ => .succeed _

def actionElementPlan : Plan alternatives free true fun _ => actionElement :=
  .andThen actionTextPlan fun _ => .andThen (.optional (markPlan .question)) fun _ =>
    .andThen (.optional elementOptionsPlan) fun _ => .succeed _

def elementPlan : Plan alternatives free true element :=
  .orElse labeledElementPlan (.orElse unlabeledElementPlan actionElementPlan)

def commandArgumentPlan : Plan alternatives free true fun _ => commandArgument :=
  .andThen (markPlan .openParen) fun _ => .andThen (.accept _ _) fun _ =>
    .andThen (markPlan .closeParen) fun _ => .succeed _

def commandPlan : Plan alternatives free true fun _ => command :=
  .andThen (.orElse (.map identifierPlan _) (.giving (keywordPlan .mode) _)) fun _ =>
    .andThen (.optional commandArgumentPlan) fun _ => .succeed _

def commandsPlan : Plan alternatives free true fun _ => commands :=
  .andThen (markPlan .arrow) fun _ =>
    .committed (.separated (fun _ => commandPlan) fun _ => markPlan .comma)

def alternativeLabelPlan : Plan alternatives free true fun _ => alternativeLabel :=
  .andThen (markPlan .hash) fun _ => .committed identifierPlan

/-- An alternative may be empty, so nothing is sure to be taken. -/
def alternativePlan : Plan alternatives free false alternative :=
  .andThen (.optional elementOptionsPlan) fun _ => .andThen (.many elementPlan rfl) fun _ =>
    .andThen (.optional alternativeLabelPlan) fun _ =>
      .andThen (.optional commandsPlan) fun _ => .succeed _

/-- Nothing is called before the parenthesis of a group. -/
def alternativesPlan : Plan alternatives false false alternatives :=
  .separated (fun _ => alternativePlan) fun _ => markPlan .bar

theorem block_unguarded : block = separated (alternative block) (mark .bar) :=
  recursive_unguarded alternativesPlan

def handlerPlan : Plan alternatives free true fun _ => handler :=
  .orElse
    (.andThen (keywordPlan .catching) fun _ => .andThen bracketedPlan fun _ =>
      .andThen actionTextPlan fun _ => .succeed _)
    (.andThen (keywordPlan .finishing) fun _ => .andThen actionTextPlan fun _ => .succeed _)

def modifierPlan : Plan alternatives free true fun _ => modifier :=
  .orElse (.giving (keywordPlan .fragment) _) (.orElse (.giving (keywordPlan .publicAccess) _)
    (.orElse (.giving (keywordPlan .privateAccess) _) (.giving (keywordPlan .protectedAccess) _)))

def rulePartPlan : Plan alternatives free true fun _ => rulePart :=
  .orElse (.map optionsBlockPlan _) (.map namedActionPlan _)

/-- A keyword with brackets behind it. -/
def bracketedClausePlan (word : Keyword) :
    Plan alternatives free true fun _ => (keyword word).andThen fun _ => bracketed :=
  .andThen (keywordPlan word) fun _ => bracketedPlan

def rulePlan : Plan alternatives true true fun _ => rule :=
  .andThen (.many modifierPlan rfl) fun _ =>
    .andThen (.expecting identifierPlan _) fun _ =>
    .andThen (.optional bracketedPlan) fun _ =>
    .andThen (.optional (bracketedClausePlan .returns)) fun _ =>
    .andThen (.optional (.andThen (keywordPlan .throws) fun _ =>
      .separated (fun _ => identifierPlan) fun _ => markPlan .comma)) fun _ =>
    .andThen (.optional (bracketedClausePlan .locals)) fun _ =>
    .andThen (.many rulePartPlan rfl) fun _ =>
    .andThen (markPlan .colon) fun _ =>
    .andThen .start fun _ =>
    .andThen (.expecting (markPlan .semicolon) _) fun _ =>
    .andThen (.many handlerPlan rfl) fun _ => .succeed _

def importListPlan : Plan alternatives free true fun _ => importList :=
  .andThen (keywordPlan .importing) fun _ => .committed
    (.andThen (.separated (fun _ => .andThen identifierPlan fun _ =>
        .andThen (.optional (.andThen (markPlan .equals) fun _ => identifierPlan)) fun _ =>
          .succeed _) fun _ => markPlan .comma) fun _ =>
      .andThen (markPlan .semicolon) fun _ => .succeed _)

def nameBlockPlan (word : Keyword) : Plan alternatives free true fun _ => nameBlock word :=
  .andThen (keywordPlan word) fun _ => .andThen (.committed actionTextPlan) fun _ => .succeed _

def prequelPlan : Plan alternatives free true fun _ => prequel :=
  .orElse (.map optionsBlockPlan _) (.orElse (.map importListPlan _)
    (.orElse (.map (nameBlockPlan .tokens) _) (.orElse (.map (nameBlockPlan .channels) _)
      (.map namedActionPlan _))))

def modeDeclarationPlan : Plan alternatives free true fun _ => modeDeclaration :=
  .andThen (keywordPlan .mode) fun _ => .committed
    (.andThen identifierPlan fun _ => .andThen (markPlan .semicolon) fun _ => .succeed _)

def fileSectionPlan : Plan alternatives true true fun _ => fileSection :=
  .orElse (.map modeDeclarationPlan _) (.committed (.map rulePlan _))

def headerPlan : Plan alternatives free true fun _ => header :=
  .andThen (.optional (.orElse (.giving (keywordPlan .lexer) _) (.giving (keywordPlan .parser) _)))
    fun _ => .andThen (.expecting (keywordPlan .grammar) _) fun _ => .committed
      (.andThen identifierPlan fun _ => .andThen (markPlan .semicolon) fun _ => .succeed _)

def grammarPlan : Plan alternatives true true fun _ => grammar :=
  .andThen headerPlan fun _ => .andThen (.many prequelPlan rfl) fun _ =>
    .andThen (.exhaust fileSectionPlan rfl) fun _ => .succeed _

/--
The loops of the readers get on, and reading ends.  What is repeated takes a lexeme with every
success, and so does what stands between items.  After a miss, reading goes on where the miss was
tried, and no reader goes back beyond its own beginning.  A file is read without guards on loops
and on groups within groups.
-/
theorem grammar_unguarded :
    (Advances (element block) ∧ Advances prequel ∧ Advances namedAction ∧ Advances optionsBlock ∧
      Advances modeDeclaration ∧ Advances rule ∧ Advances handler ∧ Advances setElement ∧
      Advances command ∧ Advances modifier ∧ Advances rulePart ∧ Advances fileSection ∧
      ∀ sign, Advances (mark sign)) ∧
    (∀ {α : Type} (item : Reader α) (lexemes : List Lexeme),
      (∀ setback, item lexemes = .missed setback →
        item.optional lexemes = .done none lexemes) ∧
      (Advances item → ∀ values rest, Reader.many item lexemes = .done values rest →
        ∃ setback, item rest = .missed setback) ∧
      (∀ separator, Advances (do separator; item) →
        ∀ values rest, separated item separator lexemes = .done values rest →
          ∃ setback, (do separator; item : Reader α) rest = .missed setback)) ∧
    (∀ {free takes : Bool} {α : Type} {reader : Reader Block → Reader α},
      Plan alternatives free takes reader → ∀ lexemes, (reader block lexemes).rest <:+ lexemes) ∧
    block = separated (alternative block) (mark .bar) ∧
    ∀ lexemes outcome,
      Runs alternativesPlan grammarPlan lexemes outcome ↔ outcome = grammar lexemes := by
  have advances {α : Type} {reader : Reader Block → Reader α}
      (plan : Plan alternatives true true reader) : Advances (reader block) :=
    plan.advances alternativesPlan
  refine ⟨⟨advances elementPlan, advances prequelPlan, advances namedActionPlan,
    advances optionsBlockPlan, advances modeDeclarationPlan, advances rulePlan,
    advances handlerPlan, advances setElementPlan, advances commandPlan, advances modifierPlan,
    advances rulePartPlan, advances fileSectionPlan, fun sign => advances (markPlan sign)⟩,
    fun item lexemes => ⟨?_, ?_, ?_⟩, ?_, block_unguarded, ?_⟩
  · exact fun _ missed => optional_restores missed
  · exact fun progress _ _ read => many_restores progress read
  · exact fun _ progress _ _ read => separated_restores progress read
  · exact fun plan lexemes => plan.suffix alternativesPlan lexemes
  · exact fun _ _ => grammarPlan.runs_iff alternativesPlan

/-- A bar with no item behind it is left by the list, and a name is left by what wants a bar. -/
theorem grammar_unguarded_bar :
    let bar : Lexeme := ⟨.mark .bar, .origin⟩
    let name : Lexeme := ⟨.ruleName "a", .origin⟩
    (mark .bar).optional [name] = .done none [name] ∧
      (Reader.many (mark .bar) [bar, name] = .done [()] [name] ∧
        ∃ setback, mark .bar [name] = .missed setback) ∧
      (separated identifier (mark .bar) [name, bar] = .done [⟨"a", .origin⟩] [bar] ∧
        ∃ setback, (do mark .bar; identifier : Reader (Located String)) [bar] = .missed setback) := by
  intro bar name
  obtain ⟨⟨-, -, -, -, -, -, -, -, -, -, -, -, signs⟩, goesBack, -⟩ := grammar_unguarded
  have repeated : Reader.many (mark .bar) [bar, name] = .done [()] [name] :=
    many_cons rfl (by decide) (many_nil rfl)
  have further : Advances (do mark .bar; identifier) := by
    have plan : Plan alternatives true true fun _ => (mark .bar).andThen fun _ => identifier :=
      .andThen (markPlan .bar) fun _ => identifierPlan
    exact plan.advances alternativesPlan
  have listed : separated identifier (mark .bar) [name, bar] = .done [⟨"a", .origin⟩] [bar] := by
    have first : identifier [name, bar] = .done ⟨"a", .origin⟩ [bar] := rfl
    have others : Reader.many ((mark .bar).andThen fun _ => identifier) [bar] = .done [] [bar] :=
      many_nil rfl
    rw [separated, bind_eq, andThen_of_done first]
    exact andThen_of_done others _
  exact ⟨(goesBack (mark .bar) [name]).1 _ rfl,
    ⟨repeated, (goesBack (mark .bar) _).2.1 (signs .bar) _ _ repeated⟩,
    ⟨listed, (goesBack identifier _).2.2 (mark .bar) further _ _ listed⟩⟩

end Railroad.Parse
