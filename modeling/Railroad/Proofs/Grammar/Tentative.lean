import Railroad.Proofs.Grammar.Language
import Railroad.Proofs.Reading.Heeds

/-!
# Parts that are read on trial

Most constructs are entered for good with their first token.  Some parts are only tried: when the
input ends inside one of them, the reader goes back to where the part began and goes on without
it.  This module lists the words with which the input can end there, and shows that there are no
others.
-/

namespace Railroad

namespace Form

/-- A list with a separator, and what stands behind the last separator. -/
def listed (item separator last : Form) : Form :=
  sequence [item, many (sequence [separator, item]), separator, last]

/-- A list that ends behind a separator, or with an item that is broken off. -/
def brokenList (item separator broken : Form) : Form :=
  choice broken [listed item separator (optional broken)]

/-- An assignment without its value. -/
def assigning : Form := sequence [name, mark .equals]

def brokenThrows : Form := sequence [keyword .throws, optional (listed name (mark .comma) empty)]

def brokenCatch : Form := sequence [keyword .catching, optional charSet]

def brokenImports : Form :=
  sequence [keyword .importing, brokenList (notion .delegate) (mark .comma) assigning]

def brokenOptions : Form :=
  sequence [mark .less, brokenList (notion .elementOption) (mark .comma) assigning]

/-- A command whose argument is not closed. -/
def brokenCommand : Form :=
  sequence [choice name [keyword .mode], mark .openParen, optional (choice name [integer])]

def brokenCommands : Form :=
  sequence [mark .arrow, brokenList (notion .command) (mark .comma) brokenCommand]

/-- A scope without the name of the action. -/
def brokenAction : Form := sequence [mark .atSign, notion .actionName, mark .doubleColon]

def brokenSet : Form :=
  sequence [mark .tilde, mark .openParen, listed (notion .setElement) (mark .bar) empty]

/-- The header of a group without its colon. -/
def brokenHeader : Form :=
  choice (sequence [optionsBlock, many (notion .namedAction)])
    [sequence [notion .namedAction, many (notion .namedAction)]]

def brokenGroup : Form := sequence [mark .openParen, brokenHeader]

/-- The ends of parts that are given up when the input goes no further. -/
def tentative : List Form :=
  [keyword .returns, keyword .locals, keyword .finishing, brokenThrows, brokenCatch, brokenImports,
    brokenOptions, brokenCommands, brokenAction, brokenSet, brokenGroup]

end Form

namespace Parse

open Reader

open Form (endings tentative)

variable {more : List Lexeme}

theorem keyword_heeds (word : Keyword) :
    Heeds more (keyword word) (keyword word) (.keyword word) 0 1 :=
  .accept (keyword_decides word).sound

theorem mark_heeds (sign : Mark) : Heeds more (mark sign) (mark sign) (.mark sign) 0 1 :=
  .accept (mark_decides sign).sound

theorem identifier_heeds : Heeds more identifier identifier .name 0 1 :=
  .accept (identifier_decides).sound

theorem stringLiteral_heeds : Heeds more stringLiteral stringLiteral .literal 0 1 :=
  .accept (stringLiteral_decides).sound

theorem bracketed_heeds : Heeds more bracketed bracketed .charSet 0 1 :=
  .accept (bracketed_decides).sound

theorem actionText_heeds : Heeds more actionText actionText .action 0 1 :=
  .accept (actionText_decides).sound

theorem optionsBlock_heeds : Heeds more optionsBlock optionsBlock .optionsBlock 0 1 :=
  ((keyword_heeds .options).andThen fun _ => (actionText_heeds).committed.andThen fun _ =>
    .succeed _).mono (by simp) (by simp)

theorem assignment_heeds {α β : Type} {value : Reader α} {form : Form}
    (heeds : Heeds more value value form 0 1) (build : Located String → Option α → β) :
    Heeds more (assignment value build) (assignment value build)
      (.sequence [.name, .optional (.sequence [.mark .equals, form])]) Form.assigning.words 1 := by
  have assigned : Heeds more _ _ _ _ _ := (mark_heeds .equals).andThen fun _ => heeds.single
  have found := (assigned.widenTo (Form.mark .equals).words (by simp)).optional_of (by simp)
  exact (identifier_heeds.andThen fun name => found.andThen fun _ => .succeed _).mono
    (by simp [Form.assigning]) (by simp)

theorem elementOption_heeds :
    Heeds more elementOption elementOption (.notion .elementOption) Form.assigning.words 1 :=
  .notion (assignment_heeds (.accept (optionValue_decides).sound) _)

theorem elementOptions_heeds : Heeds more elementOptions elementOptions (.notion .elementOptions)
    (endings tentative) 1 := by
  have list : Heeds more _ _ _ _ _ := elementOption_heeds.separated (mark_heeds .comma)
  have inner := list.andThen fun options => (mark_heeds .greater).andThen fun _ => .succeed options
  have whole := (mark_heeds .less).andThen fun _ => inner.committed
  have broken : Form.brokenOptions ∈ tentative := by simp [tentative]
  refine .notion (whole.mono ?_ (by simp))
  simpa [Form.brokenOptions, Form.brokenList, Form.listed] using Form.words_le_endings broken

theorem actionName_heeds : Heeds more actionName actionName (.notion .actionName) 0 1 :=
  .notion (((identifier_heeds.map _).orElse (((keyword_heeds .lexer).map _).orElse
    ((keyword_heeds .parser).map _))).mono (by simp) le_rfl)

theorem namedAction_heeds : Heeds more namedAction namedAction (.notion .namedAction)
    (endings tentative) 1 := by
  have scope : Heeds more _ _ _ _ _ :=
    (mark_heeds .doubleColon).andThen fun _ => actionName_heeds.single
  have found := (scope.widenTo (Form.mark .doubleColon).words (by simp)).optional_of (by simp)
  have broken : Form.brokenAction ∈ tentative := by simp [tentative]
  refine .notion (Heeds.mono ((mark_heeds .atSign).andThen fun _ =>
    (actionName_heeds.andThen fun first => found.andThen fun second =>
      actionText_heeds.andThen fun body => (?_ : Heeds more _ _ .empty 0 0)).committed) ?_ ?_)
  · cases second with
    | none => exact .succeed _
    | some name => exact .succeed _
  · simpa [Form.brokenAction] using Form.words_le_endings broken
  · simp

theorem literalOrRange_heeds :
    Heeds more literalOrRange literalOrRange .literalOrRange 0 1 := by
  have last : Heeds more (mark .doubleDot >>= fun _ => committed stringLiteral) _
      (.sequence [.mark .doubleDot, .literal]) 0 1 :=
    ((mark_heeds .doubleDot).andThen fun _ => stringLiteral_heeds.committed.single).mono (by simp)
      (by simp)
  refine Heeds.mono (stringLiteral_heeds.andThen fun first => last.optional.andThen fun found =>
    (?_ : Heeds more _ _ .empty 0 0)) (by simp) (by simp)
  cases found with
  | none => exact .succeed _
  | some text => exact .succeed _

theorem reference_heeds : Heeds more reference reference .reference 0 1 := by
  refine Heeds.mono (identifier_heeds.andThen fun name =>
    (?_ : Heeds more _ _ (.sequence [.optional .charSet]) 0 0)) (by simp) (by simp)
  split
  · exact (bracketed_heeds.optional.andThen fun _ => .succeed _).mono (by simp) (by simp)
  · refine (Heeds.succeed _).congr fun word none => ?_
    rw [Derives.empty_iff.mp none]
    exact Derives.sequence_singleton_iff.mpr .absent

theorem charSet_heeds : Heeds more charSet charSet .charSet 0 1 := bracketed_heeds.map _

theorem setElement_heeds :
    Heeds more setElement setElement (.notion .setElement) (endings tentative) 1 := by
  have core : Heeds more _ _ _ _ _ := literalOrRange_heeds.orElse
    (charSet_heeds.orElse (identifier_heeds.map fun name => Atom.reference name none))
  exact .notion (((core.mono (by simp) le_rfl).widen.andThen_endings fun atom =>
    elementOptions_heeds.optional.andThen_endings fun _ => (Heeds.succeed atom).widen).mono
      le_rfl (by simp))

theorem setBlock_heeds : Heeds more setBlock setBlock .setBlock
    (endings tentative + (Form.sequence
      [.mark .openParen, .listed (.notion .setElement) (.mark .bar) .empty]).words) ⊤ := by
  have list : Heeds more _ _ _ _ _ := setElement_heeds.separated_endings (mark_heeds .bar)
  refine ((mark_heeds .openParen).andThen fun _ => list.andThen fun atoms =>
    (mark_heeds .closeParen).andThen fun _ => .succeed atoms).mono ?_ le_top
  simpa [Form.listed] using Form.mul_endings_add_le tentative (Form.mark .openParen).words _

/-- The parenthesis behind a tilde is entered for good. -/
theorem exclusion_heeds : Heeds more exclusion exclusion .exclusion (endings tentative) 1 := by
  have set : Heeds more _ _ _ _ _ := (setElement_heeds.map Atom.excluding).orElse
    (setBlock_heeds.map Atom.excludingAny)
  have broken : Form.brokenSet ∈ tentative := by simp [tentative]
  refine ((mark_heeds .tilde).andThen fun _ => (set.expecting _).committed.single).mono ?_ (by simp)
  rw [zero_add, ← add_assoc, add_idem]
  exact (Form.mul_endings_add_le ..).trans
    (add_le le_rfl (by simpa [Form.brokenSet] using Form.words_le_endings broken))

theorem wildcard_heeds : Heeds more wildcard wildcard (.mark .dot) 0 1 := (mark_heeds .dot).map _

theorem atom_heeds : Heeds more atom atom (.notion .atom) (endings tentative) 1 := by
  have core : Heeds more _ _ _ _ _ := literalOrRange_heeds.orElse (charSet_heeds.orElse
    (reference_heeds.orElse (exclusion_heeds.orElse wildcard_heeds)))
  exact .notion (((core.mono (by simp) le_rfl).andThen_endings fun atom =>
    elementOptions_heeds.optional.andThen_endings fun _ => (Heeds.succeed atom).widen).mono
      le_rfl (by simp))

theorem repetition_heeds : Heeds more repetition repetition
    (.choice (.mark .question) [.mark .star, .mark .plus]) 0 1 :=
  (((mark_heeds .question).map _).orElse (((mark_heeds .star).map _).orElse
    ((mark_heeds .plus).map _))).mono (by simp) le_rfl

theorem suffix_heeds : Heeds more suffix suffix .suffix 0 1 :=
  (repetition_heeds.andThen fun _ => (mark_heeds .question).optional.andThen fun _ =>
    .succeed _).mono (by simp) (by simp)

theorem groupHeader_heeds : Heeds more groupHeader groupHeader .groupHeader (endings tentative)
    (1 + Form.brokenHeader.words) := by
  have actions : Heeds more _ _ _ _ _ := namedAction_heeds.many (Form.mul_endings_le ..)
  -- options and actions are both missing, or the header is a broken one
  have parts : (Form.optional .optionsBlock).words * (Form.many (.notion .namedAction)).words =
      1 + Form.brokenHeader.words := by
    simp only [Form.brokenHeader, Form.words_optional, Form.words_choice_cons,
      Form.words_choice_nil, Form.words_sequence_cons, Form.words_sequence_nil, mul_one, add_mul,
      one_mul]
    rw [add_comm (Form.optionsBlock.words * _), ← add_assoc, ← Form.words_many]
  exact (optionsBlock_heeds.optional.widen.andThen_endings fun _ =>
    actions.andThen_endings fun _ => (mark_heeds .colon).single.widen).mono le_rfl
      (by simp [← parts])

variable {block longer : Reader Block}

theorem group_heeds
    (inner : Heeds more block longer (.notion .alternatives) (endings tentative) 1) :
    Heeds more (group block) (group longer) (.notion .block) (endings tentative) 1 := by
  have broken : Form.brokenGroup ∈ tentative := by simp [tentative]
  have header : Heeds more _ _ _ _ _ := (groupHeader_heeds.widenTo
    (endings tentative + Form.brokenHeader.words) le_self_add).optional_of
      (add_le_add_right le_add_self 1)
  have rest := inner.andThen_endings fun alternatives =>
    (mark_heeds .closeParen).widen.andThen_endings fun _ => (Heeds.succeed alternatives).widen
  refine .notion (((mark_heeds .openParen).andThen fun _ =>
    (header.andThen fun _ => rest).committed).mono ?_ (by simp))
  have inside : endings tentative + Form.brokenHeader.words +
      (Form.optional .groupHeader).words * endings tentative ≤
        endings tentative + Form.brokenHeader.words :=
    add_le le_rfl ((Form.mul_endings_le ..).trans le_self_add)
  rw [zero_add]
  exact (mul_le_mul_right inside _).trans ((Form.mul_endings_add_le ..).trans
    (add_le le_rfl (by simpa [Form.brokenGroup] using Form.words_le_endings broken)))

theorem atomOrGroup_heeds
    (inner : Heeds more block longer (.notion .alternatives) (endings tentative) 1) :
    Heeds more (atomOrGroup block) (atomOrGroup longer) .content (endings tentative) 1 :=
  ((atom_heeds.map Content.atom).orElse ((group_heeds inner).map Content.group)).mono (by simp)
    le_rfl

theorem labelOperator_heeds :
    Heeds more labelOperator labelOperator (.choice (.mark .equals) [.mark .plusEquals]) 0 1 :=
  (((mark_heeds .equals).map _).orElse ((mark_heeds .plusEquals).map _)).mono (by simp) le_rfl

/-- An element with a label is given up behind its first name. -/
theorem labeledElement_heeds
    (inner : Heeds more block longer (.notion .alternatives) (endings tentative) 1) :
    Heeds more (labeledElement block) (labeledElement longer) (.notion .element)
      (endings tentative) (1 + Form.name.words) := by
  have item (name : Located String) (additive : Bool) :=
    ((atomOrGroup_heeds inner).expecting "labeled element").andThen_endings fun content =>
      suffix_heeds.optional.widen.andThen_endings fun suffix =>
        (Heeds.succeed (Element.mk content (some ⟨name.value, additive⟩) suffix)).widen
  have whole := identifier_heeds.widen.andThen_endings fun name =>
    labelOperator_heeds.widen.andThen_endings fun additive => (item name additive).committed
  exact (whole.congr fun _ => .labeled_element).mono le_rfl (by simp)

theorem unlabeledElement_heeds
    (inner : Heeds more block longer (.notion .alternatives) (endings tentative) 1) :
    Heeds more (unlabeledElement block) (unlabeledElement longer) (.notion .element)
      (endings tentative) 1 := by
  have whole := (atomOrGroup_heeds inner).andThen_endings fun content =>
    suffix_heeds.optional.widen.andThen_endings fun suffix =>
      (Heeds.succeed (Element.mk content none suffix)).widen
  exact (whole.congr fun _ => .unlabeled_element).mono le_rfl (by simp)

theorem actionElement_heeds : Heeds more actionElement actionElement (.notion .element)
    (endings tentative) 1 := by
  have whole : Heeds more _ _ _ _ _ := actionText_heeds.widen.andThen_endings fun code =>
    (mark_heeds .question).optional.widen.andThen_endings fun predicate =>
      elementOptions_heeds.optional.andThen_endings fun _ =>
        (Heeds.succeed (Element.mk (.action code predicate.isSome) none none)).widen
  exact (whole.congr fun _ => .action_element).mono le_rfl (by simp)

/-- A name that ends the input is an element without a label. -/
theorem unlabeledElement_name (block : Reader Block) {lexeme : Lexeme}
    (named : lexeme.token.terminal = .name) :
    ∃ value, unlabeledElement block [lexeme] = .done value [] := by
  have reference : Derives .reference (terminals [lexeme]) := by
    rw [terminals_cons, named]
    exact (Derives.terminal .name).sequence_pair .absent
  have atomDerives : Derives (.notion .atom) (terminals [lexeme]) := by
    rw [← List.append_nil (terminals [lexeme])]
    exact .notion (Derives.sequence_pair (.right (.right (.left reference))) .absent)
  have afterDerives : Derives .afterAtom (terminals []) := Derives.sequence_pair .absent .done
  obtain ⟨found, next, read, -, shorter⟩ := atom_leaves atomDerives afterDerives (.nil _)
  obtain rfl : next = [] := List.length_eq_zero_iff.mp (Nat.lt_one_iff.mp shorter)
  have readAtom : atom [lexeme] = .done found [] := read
  obtain ⟨_, noSuffix⟩ := (suffix_decides).misses (.nil _)
  refine ⟨⟨.atom found, none, none⟩, ?_⟩
  simp only [unlabeledElement, atomOrGroup, bind_eq, pure_eq, Reader.andThen, Reader.orElse,
    Reader.map, Reader.optional, Reader.succeed, readAtom, noSuffix]

theorem element_heeds
    (inner : Heeds more block longer (.notion .alternatives) (endings tentative) 1) :
    Heeds more (element block) (element longer) (.notion .element) (endings tentative) 1 := by
  have others := ((unlabeledElement_heeds inner).orElse actionElement_heeds).congr
    fun _ => Derives.of_either
  have whole := (labeledElement_heeds inner).orElse_of others fun lexemes given => Or.inl ?_
  · exact (whole.congr fun _ => .of_either).mono (by simp) le_rfl
  · rcases given with none | name
    · obtain rfl : lexemes = [] := List.map_eq_nil_iff.mp none
      exact others.rest_nil
    · obtain ⟨lexeme, rfl, named⟩ := lexeme_of_derives name
      obtain ⟨value, read⟩ := unlabeledElement_name block named
      simp only [Reader.orElse, read, Outcome.rest]

theorem argumentText_heeds : Heeds more argumentText argumentText (.choice .name [.integer]) 0 1 :=
  .accept (argumentText_decides).sound

/-- An argument is given up behind its parenthesis and behind its text. -/
theorem commandArgument_heeds : Heeds more commandArgument commandArgument
    (.sequence [.mark .openParen, .choice .name [.integer], .mark .closeParen]) 0
    (1 + (Form.sequence [.mark .openParen, .optional (.choice .name [.integer])]).words) :=
  ((mark_heeds .openParen).andThen fun _ => argumentText_heeds.andThen fun _ =>
    (mark_heeds .closeParen).andThen fun _ => .succeed _).mono (by simp) (by simp)

theorem command_heeds :
    Heeds more command command (.notion .command) Form.brokenCommand.words 1 := by
  have name : Heeds more
      ((identifier.map Located.value).orElse ((keyword .mode).giving "mode")) _
      (.choice .name [.keyword .mode]) 0 1 :=
    ((identifier_heeds.map _).orElse ((keyword_heeds .mode).map _)).mono (by simp) le_rfl
  have argument : Heeds more _ _ _ _ _ := commandArgument_heeds.widen.optional_of le_rfl
  exact .notion ((name.andThen fun name => argument.andThen fun _ => .succeed _).mono
    (by simp [Form.brokenCommand]) (by simp))

theorem commands_heeds : Heeds more commands commands
    (.sequence [.mark .arrow, .separated (.notion .command) (.mark .comma)])
    (endings tentative) 1 := by
  have list : Heeds more _ _ _ _ _ := command_heeds.separated (mark_heeds .comma)
  have broken : Form.brokenCommands ∈ tentative := by simp [tentative]
  refine ((mark_heeds .arrow).andThen fun _ => list.committed.single).mono ?_ (by simp)
  simpa [Form.brokenCommands, Form.brokenList, Form.listed] using Form.words_le_endings broken

theorem alternativeLabel_heeds :
    Heeds more alternativeLabel alternativeLabel (.sequence [.mark .hash, .name]) 0 1 :=
  ((mark_heeds .hash).andThen fun _ => identifier_heeds.committed.single).mono (by simp) (by simp)

theorem alternative_heeds
    (inner : Heeds more block longer (.notion .alternatives) (endings tentative) 1) :
    Heeds more (alternative block) (alternative longer) (.notion .alternative)
      (endings tentative) 0 :=
  .notion ((elementOptions_heeds.optional.andThen_endings fun _ =>
    ((element_heeds inner).many (Form.mul_endings_le ..)).andThen_endings fun _ =>
      alternativeLabel_heeds.optional.widen.andThen_endings fun _ =>
        commands_heeds.optional.andThen_endings fun _ => (Heeds.succeed _).widen).mono le_rfl
          (by simp))

theorem block_heeds :
    Heeds more Parse.block Parse.block (.notion .alternatives) (endings tentative) 1 :=
  .recursive fun _ _ inner => .notion
    (((alternative_heeds inner).separated_endings (mark_heeds .bar)).mono (by simp) bot_le)

theorem catchHandler_heeds : Heeds more catchHandler catchHandler
    (.sequence [.keyword .catching, .charSet, .action]) 0 (1 + Form.brokenCatch.words) :=
  ((keyword_heeds .catching).andThen fun _ => bracketed_heeds.andThen fun _ =>
    actionText_heeds.andThen fun _ => .succeed _).mono (by simp) (by simp [Form.brokenCatch])

theorem finalHandler_heeds : Heeds more finalHandler finalHandler
    (.sequence [.keyword .finishing, .action]) 0 (1 + (Form.keyword .finishing).words) :=
  ((keyword_heeds .finishing).andThen fun _ => actionText_heeds.andThen fun _ =>
    .succeed _).mono (by simp) (by simp)

theorem handler_heeds : Heeds more handler handler .handler (endings tentative)
    (1 + (Form.keyword .finishing).words) := by
  have broken : Form.brokenCatch ∈ tentative := by simp [tentative]
  refine ((catchHandler_heeds.widenTo (endings tentative) bot_le).orElse_of
    (finalHandler_heeds.widenTo (endings tentative) bot_le) fun lexemes given => ?_).mono
      (add_le le_rfl le_rfl) le_rfl
  rcases given with none | ends
  · obtain rfl : lexemes = [] := List.map_eq_nil_iff.mp none
    exact Or.inl (KeepsTo.rest_nil (finalHandler_heeds : Heeds more _ _ _ _ _).toKeepsTo)
  · exact Or.inr (Or.inl (Form.words_le_endings broken ends))

theorem modifier_heeds : Heeds more modifier modifier .modifier 0 1 :=
  (((keyword_heeds .fragment).map _).orElse (((keyword_heeds .publicAccess).map _).orElse
    (((keyword_heeds .privateAccess).map _).orElse
      ((keyword_heeds .protectedAccess).map _)))).mono (by simp) le_rfl

theorem rulePart_heeds : Heeds more rulePart rulePart
    (.choice .optionsBlock [.notion .namedAction]) (endings tentative) 1 :=
  ((optionsBlock_heeds.map _).orElse (namedAction_heeds.map _)).mono (by simp) le_rfl

/-- A keyword is given up if its brackets are missing. -/
theorem bracketedClause_heeds (word : Keyword) (listed : .keyword word ∈ tentative) :
    Heeds more (((keyword word).andThen fun _ => bracketed).optional)
      (((keyword word).andThen fun _ => bracketed).optional)
      (.optional (.sequence [.keyword word, .charSet])) (endings tentative) 0 := by
  have clause : Heeds more _ _ _ _ _ := (keyword_heeds word).andThen fun _ => bracketed_heeds.single
  refine (clause.widenTo (endings tentative) (by simp)).optional_of ?_
  simpa using add_le_add_right (Form.words_le_endings listed) 1

theorem throws_heeds : Heeds more
    (((keyword .throws).andThen fun _ => separated identifier (mark .comma)).optional)
    (((keyword .throws).andThen fun _ => separated identifier (mark .comma)).optional)
    (.optional (.sequence [.keyword .throws, .separated .name (.mark .comma)]))
    (endings tentative) 0 := by
  have list : Heeds more _ _ _ _ _ := identifier_heeds.separated (mark_heeds .comma)
  have clause : Heeds more _ _ _ _ _ := (keyword_heeds .throws).andThen fun _ => list.single
  have broken : Form.brokenThrows ∈ tentative := by simp [tentative]
  have ends := Form.words_le_endings broken
  simp only [Form.brokenThrows, Form.listed, Form.words_sequence_cons, Form.words_sequence_nil,
    Form.words_optional, mul_one, mul_add, Form.words_empty] at ends
  obtain ⟨keywordEnds, listEnds⟩ := add_le_iff.mp ends
  have tried := clause.widenTo (endings tentative) (by simpa using listEnds)
  refine tried.optional_of ?_
  simpa using add_le_add_right keywordEnds 1

theorem rule_heeds : Heeds more rule rule (.notion .rule) (endings tentative) ⊤ := by
  have returns : Heeds more _ _ _ _ _ :=
    bracketedClause_heeds .returns (by simp [tentative, Form.keyword])
  have locals : Heeds more _ _ _ _ _ :=
    bracketedClause_heeds .locals (by simp [tentative, Form.keyword])
  have broken : Form.keyword .finishing ∈ tentative := by simp [tentative]
  have handlers : Heeds more _ _ _ _ _ := handler_heeds.many_of
    (add_le_add_right (Form.words_le_endings broken) 1) (Form.mul_endings_le ..)
  exact .notion (((modifier_heeds.many (by simp)).widen.andThen_endings fun _ =>
    (identifier_heeds.expecting _).widen.andThen_endings fun _ =>
    bracketed_heeds.optional.widen.andThen_endings fun _ =>
    returns.andThen_endings fun _ =>
    throws_heeds.andThen_endings fun _ =>
    locals.andThen_endings fun _ =>
    (rulePart_heeds.many (Form.mul_endings_le ..)).andThen_endings fun _ =>
    (mark_heeds .colon).widen.andThen_endings fun _ =>
    block_heeds.andThen_endings fun _ =>
    ((mark_heeds .semicolon).expecting _).widen.andThen_endings fun _ =>
    handlers.andThen_endings fun _ => (Heeds.succeed _).widen).mono le_rfl le_top)

theorem importedGrammar_heeds :
    Heeds more importedGrammar importedGrammar (.notion .delegate) Form.assigning.words 1 :=
  .notion (assignment_heeds identifier_heeds _)

theorem importList_heeds : Heeds more importList importList
    (.sequence [.keyword .importing, .separated (.notion .delegate) (.mark .comma),
      .mark .semicolon]) (endings tentative) 1 := by
  have list : Heeds more _ _ _ _ _ := importedGrammar_heeds.separated (mark_heeds .comma)
  have inner := list.andThen fun names => (mark_heeds .semicolon).andThen fun _ => .succeed names
  have broken : Form.brokenImports ∈ tentative := by simp [tentative]
  refine ((keyword_heeds .importing).andThen fun _ => inner.committed).mono ?_ (by simp)
  simpa [Form.brokenImports, Form.brokenList, Form.listed] using Form.words_le_endings broken

theorem nameBlock_heeds (word : Keyword) : Heeds more (nameBlock word) (nameBlock word)
    (.sequence [.keyword word, .action]) 0 1 :=
  ((keyword_heeds word).andThen fun _ => actionText_heeds.committed.andThen fun _ =>
    .succeed _).mono (by simp) (by simp)

theorem prequel_heeds : Heeds more prequel prequel (.notion .prequel) (endings tentative) 1 :=
  .notion (((optionsBlock_heeds.map _).orElse ((importList_heeds.map _).orElse
    (((nameBlock_heeds .tokens).map _).orElse (((nameBlock_heeds .channels).map _).orElse
      (namedAction_heeds.map _))))).mono (by simp) le_rfl)

theorem modeDeclaration_heeds :
    Heeds more modeDeclaration modeDeclaration (.notion .mode) 0 1 :=
  .notion (((keyword_heeds .mode).andThen fun _ => (identifier_heeds.andThen fun _ =>
    (mark_heeds .semicolon).andThen fun _ => .succeed _).committed).mono (by simp) (by simp))

theorem fileSection_heeds : Heeds more fileSection fileSection
    (.choice (.notion .mode) [.notion .rule]) (endings tentative) 0 :=
  ((modeDeclaration_heeds.map _).orElse (rule_heeds.map _).committed).mono (by simp) le_rfl

theorem header_heeds : Heeds more header header .header 0 ⊤ := by
  have kind : Heeds more grammarKind grammarKind
      (.choice (.keyword .lexer) [.keyword .parser]) 0 1 :=
    (((keyword_heeds .lexer).map _).orElse ((keyword_heeds .parser).map _)).mono (by simp) le_rfl
  exact (kind.optional.andThen fun kind => ((keyword_heeds .grammar).expecting _).andThen fun _ =>
    (identifier_heeds.andThen fun name => (mark_heeds .semicolon).andThen fun _ =>
      .succeed _).committed).mono (by simp) le_top

/-- Up to the end of the input, what is read goes on unless it ends in a tentative part. -/
theorem grammar_heeds : Heeds more grammar grammar (.notion .file) (endings tentative) ⊤ := by
  have sections : Heeds more _ _ _ _ _ := fileSection_heeds.exhaust rfl (Form.mul_endings_le ..)
  have prequels : Heeds more _ _ _ _ _ := prequel_heeds.many (Form.mul_endings_le ..)
  refine (header_heeds.widen.andThen_endings fun opening => prequels.andThen_endings fun found =>
    sections.andThen_endings fun _ => (Heeds.succeed _).widen).congr ?_ |>.mono le_rfl le_top
  exact fun _ => .whole_file

theorem grammar_keepsTo : KeepsTo grammar (.notion .file) :=
  (grammar_heeds : Heeds [] grammar grammar _ _ _).toKeepsTo

end Parse

end Railroad
