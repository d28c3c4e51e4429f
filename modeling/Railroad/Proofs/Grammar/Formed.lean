import Railroad.Proofs.Grammar.Language
import Railroad.Proofs.Printing.Tokens
import Railroad.Proofs.Reading.Builds

/-!
# Trees that are read

Not every tree can be read from a source.  In those that can, names are no keywords, only
references to parser rules have arguments, an excluded set holds plain items, and an action stands
alone.  Reading keeps to this as long as the lexemes have the shape of scanned ones.
-/

namespace Railroad

open Scan (wordToken)

mutual

def Content.nested : Content → List Alternative
  | .group block => nestedAlternatives block
  | _ => []

def Element.nested : Element → List Alternative
  | ⟨content, _, _⟩ => content.nested

def elementsNested : List Element → List Alternative
  | [] => []
  | element :: rest => element.nested ++ elementsNested rest

def Alternative.nested : Alternative → List Alternative
  | ⟨elements, options, label, commands⟩ =>
      ⟨elements, options, label, commands⟩ :: elementsNested elements

/-- The alternatives of a block and of all groups inside it. -/
def nestedAlternatives : List Alternative → List Alternative
  | [] => []
  | alternative :: rest => alternative.nested ++ nestedAlternatives rest

end

theorem mem_elementsNested {alternative : Alternative} {elements : List Element} :
    alternative ∈ elementsNested elements ↔ ∃ element ∈ elements, alternative ∈ element.nested := by
  induction elements with
  | nil => simp [elementsNested]
  | cons element rest ih => simp [elementsNested, ih]

theorem mem_nestedAlternatives {alternative : Alternative} {block : Block} :
    alternative ∈ nestedAlternatives block ↔ ∃ outer ∈ block, alternative ∈ outer.nested := by
  induction block with
  | nil => simp [nestedAlternatives]
  | cons outer rest ih => simp [nestedAlternatives, ih]

/-- The word is no keyword. -/
def IsName (word : String) : Prop := (wordToken word).terminal = .name

/-- What may be excluded. -/
def Atom.IsItem : Atom → Prop
  | .literal _ | .range _ _ | .charSet _ => True
  | .reference name arguments => IsName name.value ∧ arguments = none
  | _ => False

def Atom.Formed : Atom → Prop
  | .reference name arguments =>
      IsName name.value ∧ (RuleKind.ofName name.value = .lexer → arguments = none)
  | .excluding operand => operand.IsItem
  | .excludingAny operands => operands ≠ [] ∧ ∀ operand ∈ operands, operand.IsItem
  | _ => True

def Command.Formed (command : Command) : Prop :=
  (IsName command.name ∨ command.name = "mode") ∧
    ∀ argument ∈ command.argument, (argumentToken argument).terminal ∈ [.name, .integer]

/-- A content apart from the alternatives in it. -/
def Content.Formed : Content → Prop
  | .atom inner => inner.Formed
  | .group block => block ≠ []
  | .action _ _ => True

def Content.isAction : Content → Bool
  | .action _ _ => true
  | _ => false

structure Element.Formed (element : Element) : Prop where
  content : element.content.Formed
  label : ∀ label ∈ element.label, IsName label.name
  alone : element.content.isAction = true → element.label = none ∧ element.suffix = none

/-- An alternative apart from those inside its groups. -/
structure Alternative.Formed (alternative : Alternative) : Prop where
  elements : ∀ element ∈ alternative.elements, element.Formed
  label : ∀ label ∈ alternative.label, IsName label
  commands : ∀ command ∈ alternative.commands, command.Formed

/-- A block with at least one alternative, formed throughout. -/
def FormedBlock (block : Block) : Prop :=
  block ≠ [] ∧ ∀ alternative ∈ nestedAlternatives block, alternative.Formed

structure Rule.Formed (rule : Rule) : Prop where
  name : IsName rule.name.value
  spelled : (wordToken rule.name.value).Shaped
  kind : rule.kind = RuleKind.ofName rule.name.value
  body : FormedBlock rule.body

namespace Parse

open Reader

/-- A name is that of a rule or of a token, at its place. -/
theorem identifier_named : Yields identifier fun taken name => ∃ lexeme, taken = [lexeme] ∧
    lexeme.span = name.span ∧
      (lexeme.token = .ruleName name.value ∨ lexeme.token = .tokenName name.value) := by
  refine (Yields.accept _ _).mono fun taken name => ?_
  rintro ⟨lexeme, rfl, selected⟩
  refine ⟨lexeme, rfl, ?_⟩
  split at selected
  next text same =>
    cases selected
    exact ⟨rfl, Or.inl same⟩
  next text same =>
    cases selected
    exact ⟨rfl, Or.inr same⟩
  next => cases selected

/-- A name stands for itself, at its place. -/
theorem identifier_yields : Yields identifier fun taken name => ∃ lexeme, taken = [lexeme] ∧
    lexeme.span = name.span ∧
      (lexeme.token.Shaped → lexeme.token = wordToken name.value ∧ IsName name.value) := by
  refine (identifier_named).mono fun taken name => ?_
  rintro ⟨lexeme, rfl, place, same | same⟩
  all_goals
    refine ⟨lexeme, rfl, place, fun shaped => ?_⟩
    rw [same] at shaped ⊢
    exact ⟨shaped.2.symm, congrArg Token.terminal shaped.2⟩

/-- A number is no word, so the argument of a command is known from its text. -/
theorem argumentText_yields : Yields argumentText fun taken text => ∃ lexeme, taken = [lexeme] ∧
    (lexeme.token.Shaped → lexeme.token = argumentToken text) ∧
      lexeme.token.terminal ∈ [.name, .integer] := by
  refine (Yields.accept _ _).mono fun taken text => ?_
  rintro ⟨lexeme, rfl, selected⟩
  refine ⟨lexeme, rfl, ?_⟩
  split at selected
  next found same =>
    cases selected
    rw [same]
    exact ⟨fun shaped => ((argumentToken_of_word shaped.1).trans shaped.2).symm,
      List.mem_cons_self ..⟩
  next found same =>
    cases selected
    rw [same]
    exact ⟨fun shaped => ((argumentToken_of_word shaped.1).trans shaped.2).symm,
      List.mem_cons_self ..⟩
  next found same =>
    cases selected
    rw [same]
    exact ⟨fun shaped => (argumentToken_of_integer shaped).symm,
      List.mem_cons_of_mem _ (List.mem_singleton_self _)⟩
  next => cases selected

theorem name_builds :
    Builds identifier fun name => IsName name.value ∧ (wordToken name.value).Shaped := by
  refine .of_yields identifier_yields fun taken name shaped => ?_
  rintro ⟨lexeme, rfl, -, known⟩
  have here := shaped lexeme (List.mem_singleton_self _)
  exact ⟨(known here).2, (known here).1 ▸ here⟩

theorem identifier_builds : Builds identifier fun name => IsName name.value :=
  (name_builds).mono fun _ => And.left

/-- The upper end of a range. -/
theorem rangeEnd_yields :
    Yields (mark .doubleDot >>= fun _ => committed stringLiteral) fun _ _ => True :=
  ((mark_decides .doubleDot).sound.andThen fun _ => (stringLiteral_decides).sound.committed).mono
    fun _ _ _ => trivial

theorem literalOrRange_builds : Builds literalOrRange fun atom => atom.Formed ∧ atom.IsItem := by
  refine .skip (stringLiteral_decides).sound fun first => .skip rangeEnd_yields.optional fun found => ?_
  cases found with
  | none => exact .succeed ⟨trivial, trivial⟩
  | some text => exact .succeed ⟨trivial, trivial⟩

theorem charSet_builds : Builds charSet fun atom => atom.Formed ∧ atom.IsItem :=
  .skip (bracketed_decides).sound fun _ => .succeed ⟨trivial, trivial⟩

theorem reference_builds : Builds reference Atom.Formed := by
  refine (identifier_builds).andThen fun name named => ?_
  split
  next kind =>
    refine .skip (bracketed_decides).sound.optional fun arguments => .succeed ⟨named, fun lexer => ?_⟩
    exact absurd (kind.symm.trans lexer) RuleKind.noConfusion
  next => exact .succeed ⟨named, fun _ => rfl⟩

theorem setElement_builds : Builds setElement Atom.IsItem := by
  have name : Builds (identifier.map fun name => Atom.reference name none) Atom.IsItem :=
    (identifier_builds).map fun _ named => ⟨named, rfl⟩
  refine ((literalOrRange_builds).mono fun _ => And.right).orElse
    (((charSet_builds).mono fun _ => And.right).orElse name) |>.andThen fun atom item => ?_
  exact .skip (elementOptions_decides).sound.optional fun _ => .succeed item

theorem setBlock_builds :
    Builds setBlock fun operands => operands ≠ [] ∧ ∀ operand ∈ operands, operand.IsItem :=
  .skip (mark_decides .openParen).sound fun _ =>
    ((setElement_builds).separated (mark_decides .bar).sound).andThen fun _ items =>
      .skip (mark_decides .closeParen).sound fun _ => .succeed items

theorem exclusion_builds : Builds exclusion Atom.Formed :=
  have item : Builds (setElement.map Atom.excluding) Atom.Formed :=
    (setElement_builds).map fun _ item => item
  have list : Builds (setBlock.map Atom.excludingAny) Atom.Formed :=
    (setBlock_builds).map fun _ items => items
  .skip (mark_decides .tilde).sound fun _ => .committed ((item.orElse list).expecting _)

theorem atom_builds : Builds atom Atom.Formed := by
  have wild : Builds wildcard Atom.Formed :=
    .skip (mark_decides .dot).sound fun _ => .succeed trivial
  refine ((literalOrRange_builds).mono fun _ => And.left).orElse
    (((charSet_builds).mono fun _ => And.left).orElse ((reference_builds).orElse
      ((exclusion_builds).orElse wild))) |>.andThen fun atom formed => ?_
  exact .skip (elementOptions_decides).sound.optional fun _ => .succeed formed

variable {block : Reader Block}

theorem group_builds (builds : Builds block FormedBlock) : Builds (group block) FormedBlock :=
  .skip (mark_decides .openParen).sound fun _ => .committed <|
    .skip (groupHeader_recognizes).sound.optional fun _ => builds.andThen fun _ formed =>
      .skip (mark_decides .closeParen).sound fun _ => .succeed formed

theorem atomOrGroup_builds (builds : Builds block FormedBlock) :
    Builds (atomOrGroup block) fun content => content.Formed ∧ content.isAction = false ∧
      ∀ alternative ∈ content.nested, alternative.Formed :=
  .orElse ((atom_builds).map fun _ formed => ⟨formed, rfl, List.forall_mem_nil _⟩)
    ((group_builds builds).map fun _ formed => ⟨formed.1, rfl, formed.2⟩)

theorem element_builds (builds : Builds block FormedBlock) :
    Builds (element block) fun element => element.Formed ∧
      ∀ alternative ∈ element.nested, alternative.Formed := by
  refine .orElse ?_ (.orElse ?_ ?_)
  · refine (identifier_builds).andThen fun name named =>
      .skip (labelOperator_decides).sound fun additive => .committed ?_
    refine ((atomOrGroup_builds builds).expecting _).andThen fun content formed =>
      .skip (suffix_decides).sound.optional fun suffix => .succeed ⟨⟨formed.1, ?_, ?_⟩, formed.2.2⟩
    · intro label same
      exact Option.some.inj same ▸ named
    · intro action
      exact absurd (formed.2.1.symm.trans action) Bool.false_ne_true
  · refine (atomOrGroup_builds builds).andThen fun content formed =>
      .skip (suffix_decides).sound.optional fun suffix => .succeed ⟨⟨formed.1, ?_, ?_⟩, formed.2.2⟩
    · exact fun label none => absurd none (Option.not_mem_none _)
    · intro action
      exact absurd (formed.2.1.symm.trans action) Bool.false_ne_true
  · refine .skip (actionText_decides).sound fun code =>
      .skip (mark_decides .question).sound.optional fun predicate =>
        .skip (elementOptions_decides).sound.optional fun _ => .succeed ⟨⟨trivial, ?_, ?_⟩, ?_⟩
    · exact fun label none => absurd none (Option.not_mem_none _)
    · exact fun _ => ⟨rfl, rfl⟩
    · exact List.forall_mem_nil _

theorem command_builds : Builds command Command.Formed := by
  have name : Builds ((identifier.map Located.value).orElse ((keyword .mode).giving "mode"))
      fun name => IsName name ∨ name = "mode" :=
    .orElse ((identifier_builds).map fun _ => Or.inl)
      (.skip (keyword_decides .mode).sound fun _ => .succeed (Or.inr rfl))
  have argument : Builds argumentText
      fun text => (argumentToken text).terminal ∈ [.name, .integer] := by
    refine .of_yields argumentText_yields fun taken text shaped => ?_
    rintro ⟨lexeme, rfl, same, known⟩
    exact same (shaped lexeme (List.mem_singleton_self _)) ▸ known
  have parenthesized : Builds commandArgument
      fun text => (argumentToken text).terminal ∈ [.name, .integer] :=
    .skip (mark_decides .openParen).sound fun _ => argument.andThen fun _ known =>
      .skip (mark_decides .closeParen).sound fun _ => .succeed known
  exact name.andThen fun _ named => parenthesized.optional.andThen fun _ known =>
    .succeed ⟨named, known⟩

theorem alternative_builds (builds : Builds block FormedBlock) :
    Builds (alternative block)
      fun alternative => ∀ nested ∈ alternative.nested, nested.Formed := by
  have label : Builds alternativeLabel fun name => IsName name.value :=
    .skip (mark_decides .hash).sound fun _ => (identifier_builds).committed
  have commands : Builds commands fun found => ∀ command ∈ found, command.Formed :=
    .skip (mark_decides .arrow).sound fun _ =>
      (((command_builds).separated (mark_decides .comma).sound).mono fun _ => And.right).committed
  refine .skip (elementOptions_decides).sound.optional fun options =>
    (element_builds builds).many.andThen fun elements formed =>
      label.optional.andThen fun label named => commands.optional.andThen fun found known =>
        .succeed (List.forall_mem_cons.mpr ⟨⟨fun element member => (formed element member).1, ?_, ?_⟩, ?_⟩)
  · intro name same
    obtain ⟨place, listed, rfl⟩ := Option.map_eq_some_iff.mp same
    exact named place listed
  · intro command member
    cases found with
    | none => exact absurd member List.not_mem_nil
    | some list => exact known list rfl command member
  · intro nested inside
    obtain ⟨element, member, within⟩ := mem_elementsNested.mp inside
    exact (formed element member).2 nested within

theorem block_builds : Builds Parse.block FormedBlock := by
  refine .recursive fun inner builds => ?_
  refine ((alternative_builds builds).separated (mark_decides .bar).sound).mono fun block formed => ?_
  refine ⟨formed.1, fun nested inside => ?_⟩
  obtain ⟨outer, listed, within⟩ := mem_nestedAlternatives.mp inside
  exact formed.2 outer listed nested within

theorem rule_builds : Builds rule Rule.Formed :=
  .skip (modifier_decides).sound.many fun _ =>
    ((name_builds).expecting _).andThen fun _ named =>
    .skip (bracketed_decides).sound.optional fun _ =>
    .skip (bracketedClause_decides .returns).sound.optional fun _ =>
    .skip (throws_decides).sound.optional fun _ =>
    .skip (bracketedClause_decides .locals).sound.optional fun _ =>
    .skip (rulePart_decides).sound.many fun _ =>
    .skip (mark_decides .colon).sound fun _ => (block_builds).andThen fun _ formed =>
    .skip ((mark_decides .semicolon).sound.expecting _) fun _ =>
    .skip (handler_decides).sound.many fun _ => .succeed ⟨named.1, named.2, rfl, formed⟩

/-- The rules of a grammar are those declared in its sections, apart from their modes. -/
theorem mem_rulesInModes {rule : Rule} {sections : List Section} {mode : Option String}
    (listed : rule ∈ rulesInModes mode sections) :
    ∃ declared, .rule declared ∈ sections ∧ rule = { declared with mode := rule.mode } := by
  induction sections generalizing mode with
  | nil => cases listed
  | cons first rest ih =>
      cases first with
      | mode name =>
          obtain ⟨declared, member, same⟩ := ih listed
          exact ⟨declared, List.mem_cons_of_mem _ member, same⟩
      | rule declared =>
          rcases List.mem_cons.mp listed with rfl | later
          · exact ⟨declared, List.mem_cons_self .., rfl⟩
          · obtain ⟨other, member, same⟩ := ih later
            exact ⟨other, List.mem_cons_of_mem _ member, same⟩

theorem grammar_builds :
    Builds grammar fun found => (IsName found.name.value ∧ (wordToken found.name.value).Shaped) ∧
      ∀ rule ∈ found.rules, rule.Formed := by
  have head : Builds header fun found =>
      IsName found.2.value ∧ (wordToken found.2.value).Shaped :=
    .skip (grammarKind_decides).sound.optional fun _ =>
      .skip ((keyword_decides .grammar).sound.expecting _) fun _ => .committed <|
        (name_builds).andThen fun _ named =>
          .skip (mark_decides .semicolon).sound fun _ => .succeed named
  have sections : Builds fileSection fun found => ∀ rule, found = .rule rule → rule.Formed := by
    refine .orElse ?_ (.committed ((rule_builds).map fun _ formed rule same => ?_))
    · exact .skip (modeDeclaration_decides).sound fun _ => .succeed fun _ => Section.noConfusion
    · exact Section.rule.inj same ▸ formed
  refine head.andThen fun found named => .skip (prequel_decides).sound.many fun prequels =>
    sections.exhaust.andThen fun found formed => .succeed ⟨named, fun rule listed => ?_⟩
  obtain ⟨declared, member, same⟩ := mem_rulesInModes listed
  obtain ⟨name, spelled, kind, body⟩ := formed _ member declared rfl
  rw [same]
  exact ⟨name, spelled, kind, body⟩

end Parse

end Railroad
