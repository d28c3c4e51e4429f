import Railroad.Proofs.Diagram.Leaves
import Railroad.Proofs.Grammar.Formed
import Railroad.Proofs.Reading.Gathers

/-!
# Names of trees

The tree of a grammar holds names with their places: its own name, the names of its rules, and the
references in their bodies.  Every one of them is a lexeme of the source, and in the tree they
stand in the order of the source.
-/

namespace Railroad

/-- The name that a lexeme spells, at its place. -/
def Lexeme.name? (lexeme : Lexeme) : Option (Located String) :=
  match lexeme.token with
  | .ruleName name | .tokenName name => some ⟨name, lexeme.span⟩
  | _ => none

def namesOf (lexemes : List Lexeme) : List (Located String) := lexemes.filterMap Lexeme.name?

/-- The name of a reference with its place. -/
def Atom.name? : Atom → Option (Located String)
  | .reference name _ => some name
  | _ => none

/-- The names of references among leaves. -/
def leafNames (leaves : List Atom) : List (Located String) := leaves.filterMap Atom.name?

@[simp]
theorem leafNames_append (first second : List Atom) :
    leafNames (first ++ second) = leafNames first ++ leafNames second := List.filterMap_append

/-- The name of a rule, and the references in its body from left to right at any depth. -/
def Rule.names (rule : Rule) : List (Located String) :=
  rule.name :: leafNames (blockLeaves rule.body)

/-- The names of a grammar in the order of the tree. -/
def Grammar.names (grammar : Grammar) : List (Located String) :=
  grammar.name :: grammar.rules.flatMap Rule.names

theorem leafNames_atoms (atoms : List Atom) :
    leafNames (atomLeaves atoms) = atoms.flatMap fun atom => leafNames atom.leaves := by
  induction atoms with
  | nil => rfl
  | cons atom rest ih => rw [atomLeaves, leafNames_append, ih, List.flatMap_cons]

theorem leafNames_elements (elements : List Element) :
    leafNames (elementLeaves elements) =
      elements.flatMap fun element => leafNames element.leaves := by
  induction elements with
  | nil => rfl
  | cons element rest ih => rw [elementLeaves, leafNames_append, ih, List.flatMap_cons]

theorem leafNames_block (block : Block) :
    leafNames (blockLeaves block) = block.flatMap fun alternative => leafNames alternative.leaves := by
  induction block with
  | nil => rfl
  | cons alternative rest ih => rw [blockLeaves, leafNames_append, ih, List.flatMap_cons]

/-- The names are among those of the lexemes, in their order. -/
def Names (taken : List Lexeme) (own : List (Located String)) : Prop := own.Sublist (namesOf taken)

namespace Reader

variable {α β : Type} {spelled : List Lexeme → α → Prop} {reader : Reader α}

instance : Additive Names where
  nil := List.Sublist.refl []
  append head tail := by
    rw [Names, namesOf, List.filterMap_append]
    exact head.append tail

/-- A part of which no name is kept. -/
theorem Yields.unnamed (yields : Yields reader spelled) : Gathers Names reader [] fun _ => [] :=
  yields.mono fun _ _ _ => ⟨[], List.nil_sublist _, rfl⟩

theorem Gathers.skip {next : α → Reader β} {before : List (Located String)}
    {whole : β → List (Located String)} (yields : Yields reader spelled)
    (tail : ∀ value, Gathers Names (next value) before whole) :
    Gathers Names (reader.andThen next) before whole :=
  yields.unnamed.andThen fun value => (List.append_nil before).symm ▸ tail value

end Reader

namespace Parse

open Reader

theorem identifier_names : Gathers Names identifier [] fun name => [name] := by
  refine .of_yields ((Yields.accept _ Lexeme.name?).mono fun taken name => ?_)
  rintro ⟨lexeme, rfl, found⟩
  rw [Names, namesOf, List.filterMap_cons_some found]
  exact List.Sublist.refl _

theorem literalOrRange_names :
    Gathers Names literalOrRange [] fun atom => leafNames atom.leaves := by
  refine .skip (stringLiteral_decides).sound fun first => .skip rangeEnd_yields.optional fun found => ?_
  cases found with
  | none => exact .succeed rfl
  | some text => exact .succeed rfl

theorem charSet_names : Gathers Names charSet [] fun atom => leafNames atom.leaves :=
  (bracketed_decides).sound.unnamed.map fun _ => rfl

theorem reference_names : Gathers Names reference [] fun atom => leafNames atom.leaves := by
  refine (identifier_names).andThen fun name => ?_
  split
  · exact .skip (bracketed_decides).sound.optional fun arguments => .succeed rfl
  · exact .succeed rfl

theorem setElement_names : Gathers Names setElement [] fun atom => leafNames atom.leaves := by
  have name : Gathers Names (identifier.map fun name => Atom.reference name none) []
      fun atom => leafNames atom.leaves :=
    (identifier_names).map fun _ => rfl
  exact ((literalOrRange_names).orElse ((charSet_names).orElse name)).andThen fun atom =>
    .skip (elementOptions_decides).sound.optional fun _ => .succeed rfl

theorem setBlock_names : Gathers Names setBlock [] fun atoms => leafNames (atomLeaves atoms) :=
  .skip (mark_decides .openParen).sound fun _ =>
    ((setElement_names).separated (mark_decides .bar).sound.unnamed fun _ _ => rfl).andThen
      fun atoms => .skip (mark_decides .closeParen).sound fun _ => .succeed (leafNames_atoms atoms).symm

theorem exclusion_names : Gathers Names exclusion [] fun atom => leafNames atom.leaves := by
  have item : Gathers Names (setElement.map Atom.excluding) [] fun atom => leafNames atom.leaves :=
    (setElement_names).map fun _ => rfl
  have list : Gathers Names (setBlock.map Atom.excludingAny) []
      fun atom => leafNames atom.leaves :=
    (setBlock_names).map fun _ => rfl
  exact .skip (mark_decides .tilde).sound fun _ => ((item.orElse list).expecting _).committed

theorem atom_names : Gathers Names atom [] fun atom => leafNames atom.leaves := by
  have wild : Gathers Names wildcard [] fun atom => leafNames atom.leaves :=
    (mark_decides .dot).sound.unnamed.map fun _ => rfl
  exact ((literalOrRange_names).orElse ((charSet_names).orElse ((reference_names).orElse
    ((exclusion_names).orElse wild)))).andThen fun atom =>
      .skip (elementOptions_decides).sound.optional fun _ => .succeed rfl

variable {block : Reader Block}

theorem group_names (names : Gathers Names block [] fun found => leafNames (blockLeaves found)) :
    Gathers Names (group block) [] fun found => leafNames (blockLeaves found) :=
  .skip (mark_decides .openParen).sound fun _ => .committed <|
    .skip (groupHeader_recognizes).sound.optional fun _ => names.andThen fun _ =>
      .skip (mark_decides .closeParen).sound fun _ => .succeed rfl

theorem atomOrGroup_names
    (names : Gathers Names block [] fun found => leafNames (blockLeaves found)) :
    Gathers Names (atomOrGroup block) [] fun content => leafNames content.leaves := by
  have single : Gathers Names (atom.map Content.atom) [] fun content => leafNames content.leaves :=
    (atom_names).map fun _ => rfl
  have grouped : Gathers Names ((group block).map Content.group) []
      fun content => leafNames content.leaves :=
    (group_names names).map fun _ => rfl
  exact single.orElse grouped

theorem element_names (names : Gathers Names block [] fun found => leafNames (blockLeaves found)) :
    Gathers Names (element block) [] fun element => leafNames element.leaves := by
  refine .orElse ?_ (.orElse ?_ ?_)
  · exact .skip identifier_yields fun name => .skip (labelOperator_decides).sound fun additive =>
      .committed (((atomOrGroup_names names).expecting _).andThen fun content =>
        .skip (suffix_decides).sound.optional fun suffix => .succeed rfl)
  · exact (atomOrGroup_names names).andThen fun content =>
      .skip (suffix_decides).sound.optional fun suffix => .succeed rfl
  · exact .skip (actionText_decides).sound fun code =>
      .skip (mark_decides .question).sound.optional fun predicate =>
        .skip (elementOptions_decides).sound.optional fun _ => .succeed rfl

theorem alternative_names
    (names : Gathers Names block [] fun found => leafNames (blockLeaves found)) :
    Gathers Names (alternative block) [] fun alternative => leafNames alternative.leaves :=
  .skip (elementOptions_decides).sound.optional fun _ =>
    (element_names names).many.andThen fun elements =>
      .skip (alternativeLabel_decides).sound.optional fun _ =>
        .skip (commands_decides).sound.optional fun _ =>
          .succeed (leafNames_elements elements).symm

theorem block_names : Gathers Names Parse.block [] fun found => leafNames (blockLeaves found) :=
  Yields.recursive fun _ names =>
    (alternative_names names).separated (mark_decides .bar).sound.unnamed
      fun first others => (leafNames_block (first :: others)).symm

theorem rule_names : Gathers Names rule [] Rule.names :=
  .skip (modifier_decides).sound.many fun _ =>
    ((identifier_names).expecting _).andThen fun _ =>
    .skip (bracketed_decides).sound.optional fun _ =>
    .skip (bracketedClause_decides .returns).sound.optional fun _ =>
    .skip (throws_decides).sound.optional fun _ =>
    .skip (bracketedClause_decides .locals).sound.optional fun _ =>
    .skip (rulePart_decides).sound.many fun _ =>
    .skip (mark_decides .colon).sound fun _ => (block_names).andThen fun _ =>
    .skip ((mark_decides .semicolon).sound.expecting _) fun _ =>
    .skip (handler_decides).sound.many fun _ => .succeed rfl

def Section.names : Section → List (Located String)
  | .mode _ => []
  | .rule declared => declared.names

theorem fileSection_names : Gathers Names fileSection [] Section.names := by
  have mode : Gathers Names (modeDeclaration.map Section.mode) [] Section.names :=
    (modeDeclaration_decides).sound.unnamed.map fun _ => rfl
  have declared : Gathers Names (rule.map Section.rule) [] Section.names :=
    (rule_names).map fun _ => rfl
  exact mode.orElse declared.committed

theorem header_names : Gathers Names header [] fun found => [found.2] :=
  .skip (grammarKind_decides).sound.optional fun _ =>
    .skip ((keyword_decides .grammar).sound.expecting _) fun _ => .committed <|
      (identifier_names).andThen fun _ => .skip (mark_decides .semicolon).sound fun _ => .succeed rfl

/-- The mode of a rule is no part of its names. -/
theorem rulesInModes_names (mode : Option String) (sections : List Section) :
    (rulesInModes mode sections).flatMap Rule.names = sections.flatMap Section.names := by
  induction sections generalizing mode with
  | nil => rfl
  | cons first rest ih =>
      cases first with
      | mode name => exact ih _
      | rule declared => exact congrArg (declared.names ++ ·) (ih mode)

theorem grammar_names : Gathers Names grammar [] Grammar.names := by
  have sections : Gathers Names (exhaust fileSection) []
      fun sections => sections.flatMap Section.names :=
    .of_yields (((fileSection_names).yields.both fileSection_takes).exhaust (fun _ _ both => both.2) |>.mono
      fun _ _ each => Gathers.of_each (each.mono fun _ _ both => both.1))
  exact (header_names).andThen fun found => .skip (prequel_decides).sound.many fun prequels =>
    sections.andThen fun sections => .succeed
      (congrArg ([found.2] ++ ·) (rulesInModes_names none sections).symm)

end Parse

end Railroad
