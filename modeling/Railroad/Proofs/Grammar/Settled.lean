import Railroad.Proofs.Reading.Settles

/-!
# Grammars that stop at the end of their input

The readers of grammar files, one after the other: where one of them stops at the end of its input
nothing is pending.  So an input that is called incomplete does not end in a tentative part.
-/

namespace Railroad.Parse

open Reader Settles

open Form (endings tentative)

variable {tried : Bool} {phases : List Phase}

theorem keyword_settles (word : Keyword) (calm : tried = true ∨ Phase.Calm phases) :
    Settles tried (keyword word) (.keyword word) phases :=
  .accept (keyword_decides word).sound calm

theorem mark_settles (sign : Mark) (calm : tried = true ∨ Phase.Calm phases) :
    Settles tried (mark sign) (.mark sign) phases :=
  .accept (mark_decides sign).sound calm

theorem identifier_settles (calm : tried = true ∨ Phase.Calm phases) :
    Settles tried identifier .name phases :=
  .accept (identifier_decides).sound calm

theorem stringLiteral_settles (calm : tried = true ∨ Phase.Calm phases) :
    Settles tried stringLiteral .literal phases :=
  .accept (stringLiteral_decides).sound calm

theorem bracketed_settles (calm : tried = true ∨ Phase.Calm phases) :
    Settles tried bracketed .charSet phases :=
  .accept (bracketed_decides).sound calm

theorem actionText_settles (calm : tried = true ∨ Phase.Calm phases) :
    Settles tried actionText .action phases :=
  .accept (actionText_decides).sound calm

theorem optionsBlock_settles : Settles true optionsBlock .optionsBlock
    [⟨.free, .nothing⟩, ⟨.free, .item⟩, ⟨.free, .paren⟩] :=
  (keyword_settles .options (by decide)).andThen (by decide) fun _ =>
    (actionText_settles (by decide)).committed.andThen (by decide) fun _ => .succeed _

theorem assignment_settles {α β : Type} {value : Reader α} {form : Form}
    (settles : Settles true value form ((Form.mark .equals).ends (Form.name.ends phases)))
    (known : ((Form.optional (.sequence [.mark .equals, form])).reach (Form.name.ends phases)).isSome)
    (calm : tried = true ∨ Phase.Calm phases) (build : Located String → Option α → β) :
    Settles tried (assignment value build)
      (.sequence [.name, .optional (.sequence [.mark .equals, form])]) phases := by
  have assigned : Settles true ((mark .equals).andThen fun _ => value)
      (.sequence [.mark .equals, form]) (Form.name.ends phases) :=
    (mark_settles .equals (.inl rfl)).andThen rfl fun _ => settles.single
  exact (identifier_settles calm).andThen rfl fun _ => assigned.optional.andThen known fun _ =>
    .succeed _

theorem elementOption_settles (calm : tried = true ∨ Phase.Calm phases) :
    Settles tried elementOption (.notion .elementOption) phases :=
  .notion (assignment_settles (.accept (optionValue_decides).sound (.inl rfl)) rfl calm _)

theorem elementOptions_settles : Settles true elementOptions (.notion .elementOptions)
    (Notion.entries .elementOptions) :=
  .notion ((mark_settles .less (by decide)).andThen (by decide) fun _ =>
    ((Settles.separated (elementOption_settles (by decide)) (by decide) (by decide)
      (mark_settles .comma (by decide)) (by decide) (elementOption_settles (by decide))).andThen
        (by decide) fun _ => (mark_settles .greater (by decide)).andThen (by decide) fun _ =>
          .succeed _).committed)

theorem actionName_settles (calm : tried = true ∨ Phase.Calm phases) :
    Settles tried actionName (.notion .actionName) phases :=
  .notion (((identifier_settles (.inl rfl)).map _).orElse
    (((keyword_settles .lexer (.inl rfl)).map _).orElse ((keyword_settles .parser calm).map _)))

theorem namedAction_settles : Settles true namedAction (.notion .namedAction)
    (Notion.entries .namedAction) := by
  have scope : Settles true ((mark .doubleColon).andThen fun _ => actionName)
      (.sequence [.mark .doubleColon, .notion .actionName])
      ((Form.notion .actionName).ends ((Form.mark .atSign).ends (Notion.entries .namedAction))) :=
    (mark_settles .doubleColon (by decide)).andThen (by decide) fun _ =>
      (actionName_settles (by decide)).single
  refine .notion ((mark_settles .atSign (by decide)).andThen (by decide) fun _ =>
    ((actionName_settles (by decide)).andThen (by decide) fun first =>
      scope.optional.andThen (by decide) fun second =>
        (actionText_settles (by decide)).andThen (by decide) fun body =>
          (?_ : Settles false _ .empty _)).committed)
  cases second with
  | none => exact .succeed _
  | some name => exact .succeed _

theorem literalOrRange_settles (calm : tried = true ∨ Phase.Calm phases) :
    Settles tried literalOrRange .literalOrRange phases := by
  have behind : Phase.Calm ((Form.mark .doubleDot).ends (Form.literal.ends phases)) := by
    intro phase member
    obtain ⟨before, -, rfl⟩ := List.mem_map.mp member
    rfl
  have last : Settles true (mark .doubleDot >>= fun _ => committed stringLiteral)
      (.sequence [.mark .doubleDot, .literal]) (Form.literal.ends phases) :=
    (mark_settles .doubleDot (.inl rfl)).andThen rfl fun _ =>
      (stringLiteral_settles (.inr behind)).committed.single
  refine (stringLiteral_settles calm).andThen rfl fun first =>
    last.optional.andThen rfl fun found => (?_ : Settles tried _ .empty _)
  cases found with
  | none => exact .succeed _
  | some text => exact .succeed _

theorem reference_settles (calm : tried = true ∨ Phase.Calm phases) :
    Settles tried reference .reference phases := by
  refine (identifier_settles calm).andThen rfl fun name =>
    (?_ : Settles tried _ (.sequence [.optional .charSet]) _)
  split
  · exact (bracketed_settles (.inl rfl)).optional.andThen rfl fun _ => .succeed _
  · refine (Settles.succeed _).congr fun word none => ?_
    rw [Derives.empty_iff.mp none]
    exact Derives.sequence_singleton_iff.mpr .absent

theorem charSet_settles (calm : tried = true ∨ Phase.Calm phases) :
    Settles tried charSet .charSet phases :=
  (bracketed_settles calm).map _

theorem setElement_settles (calm : tried = true ∨ Phase.Calm phases)
    (within : (Form.choice .literalOrRange [.charSet, .name]).ends phases ⊆
      Notion.entries .elementOptions) :
    Settles tried setElement (.notion .setElement) phases := by
  have known : ((Form.optional (.notion .elementOptions)).reach
      ((Form.choice .literalOrRange [.charSet, .name]).ends phases)).isSome = true := by
    rw [Form.reach, Form.reach, if_pos within]
    rfl
  exact .notion (((literalOrRange_settles (.inl rfl)).orElse ((charSet_settles (.inl rfl)).orElse
    ((identifier_settles calm).map _))).andThen rfl fun atom =>
      (elementOptions_settles.mono within).optional.andThen known fun _ => .succeed atom)

theorem setBlock_settles : Settles false setBlock .setBlock [⟨.free, .tilde⟩] :=
  (mark_settles .openParen (by decide)).andThen (by decide) fun _ =>
    (Settles.separated (setElement_settles (by decide) (by decide)) (by decide) (by decide)
      (mark_settles .bar (by decide)) (by decide)
      (setElement_settles (by decide) (by decide))).andThen (by decide) fun _ =>
        (mark_settles .closeParen (by decide)).andThen (by decide) fun _ => .succeed _

theorem exclusion_settles : Settles true exclusion .exclusion (Notion.entries .atom) :=
  (mark_settles .tilde (by decide)).andThen (by decide) fun _ =>
    (((setElement_settles (by decide) (by decide)).map _).orElse
      ((setBlock_settles.mono (by decide)).map _) |>.expecting _).committed.single

theorem atom_settles : Settles true atom (.notion .atom) (Notion.entries .atom) :=
  .notion (((literalOrRange_settles (by decide)).orElse ((charSet_settles (by decide)).orElse
    ((reference_settles (by decide)).orElse (exclusion_settles.orElse
      ((mark_settles .dot (by decide)).map _))))).andThen (by decide) fun atom =>
        (elementOptions_settles.mono (by decide)).optional.andThen (by decide) fun _ =>
          .succeed atom)

theorem suffix_settles : Settles true suffix .suffix phases :=
  (((mark_settles .question (.inl rfl)).map _).orElse
    (((mark_settles .star (.inl rfl)).map _).orElse
      ((mark_settles .plus (.inl rfl)).map _))).andThen rfl fun _ =>
      (mark_settles .question (.inl rfl)).optional.andThen rfl fun _ => .succeed _

theorem groupHeader_settles : Settles true groupHeader .groupHeader [⟨.free, .paren⟩] :=
  (optionsBlock_settles.mono (by decide)).optional.andThen (by decide) fun _ =>
    (Settles.many (by decide) (namedAction_settles.mono (by decide))).andThen (by decide) fun _ =>
      (mark_settles .colon (by decide)).single

variable {block : Reader Block}

theorem group_settles
    (inner : Settles false block (.notion .alternatives) (Notion.entries .alternatives)) :
    Settles tried (group block) (.notion .block) (Notion.entries .block) :=
  .notion ((mark_settles .openParen (.inr (by decide))).andThen (by decide) fun _ =>
    ((groupHeader_settles.mono (by decide)).optional.andThen (by decide) fun _ =>
      (inner.mono (by decide)).andThen (by decide) fun alternatives =>
        (mark_settles .closeParen (by decide)).andThen (by decide) fun _ =>
          .succeed alternatives).committed)

theorem atomOrGroup_settles
    (inner : Settles false block (.notion .alternatives) (Notion.entries .alternatives)) :
    Settles tried (atomOrGroup block) .content (Notion.entries .element) :=
  (atom_settles.map Content.atom).orElse ((group_settles inner).map Content.group)

theorem labeledElement_settles
    (inner : Settles false block (.notion .alternatives) (Notion.entries .alternatives)) :
    Settles true (labeledElement block) (.notion .element) (Notion.entries .element) := by
  have item (name : Located String) (additive : Bool) :
      Settles false _ (.sequence [.content, .optional .suffix]) [Phase.start] :=
    (((atomOrGroup_settles inner).mono (by decide)).expecting "labeled element").andThen
      (by decide) fun content => suffix_settles.optional.andThen (by decide) fun suffix =>
        .succeed (Element.mk content (some ⟨name.value, additive⟩) suffix)
  exact ((identifier_settles (by decide)).andThen (by decide) fun name =>
    (((mark_settles .equals (by decide)).map _).orElse
      ((mark_settles .plusEquals (by decide)).map _)).andThen (by decide) fun additive =>
        ((item name additive).mono (by decide)).committed).congr fun _ => .labeled_element

theorem unlabeledElement_settles
    (inner : Settles false block (.notion .alternatives) (Notion.entries .alternatives)) :
    Settles true (unlabeledElement block) (.notion .element) (Notion.entries .element) :=
  ((atomOrGroup_settles inner).andThen (by decide) fun content =>
    suffix_settles.optional.andThen (by decide) fun suffix =>
      .succeed (Element.mk content none suffix)).congr fun _ => .unlabeled_element

theorem actionElement_settles :
    Settles true actionElement (.notion .element) (Notion.entries .element) :=
  ((actionText_settles (by decide)).andThen (by decide) fun code =>
    (mark_settles .question (by decide)).optional.andThen (by decide) fun predicate =>
      (elementOptions_settles.mono (by decide)).optional.andThen (by decide) fun _ =>
        .succeed (Element.mk (.action code predicate.isSome) none none)).congr
          fun _ => .action_element

theorem element_settles
    (inner : Settles false block (.notion .alternatives) (Notion.entries .alternatives)) :
    Settles true (element block) (.notion .element) (Notion.entries .element) := by
  have others := ((unlabeledElement_settles inner).orElse actionElement_settles).congr
    fun _ => Derives.of_either
  exact ((labeledElement_settles inner).orElse others).congr fun _ => .of_either

theorem command_settles (calm : tried = true ∨ Phase.Calm phases) :
    Settles tried command (.notion .command) phases := by
  have argument : Settles true commandArgument
      (.sequence [.mark .openParen, .choice .name [.integer], .mark .closeParen])
      ((Form.choice .name [.keyword .mode]).ends phases) :=
    (mark_settles .openParen (.inl rfl)).andThen rfl fun _ =>
      (accept (argumentText_decides).sound (.inl rfl)).andThen rfl fun _ =>
        (mark_settles .closeParen (.inl rfl)).andThen rfl fun _ => .succeed _
  exact .notion ((((identifier_settles (.inl rfl)).map _).orElse
    ((keyword_settles .mode calm).map _)).andThen rfl fun name =>
      argument.optional.andThen rfl fun _ => .succeed _)

theorem commands_settles : Settles true commands
    (.sequence [.mark .arrow, .separated (.notion .command) (.mark .comma)])
    [⟨.free, .nothing⟩, ⟨.free, .paren⟩] :=
  (mark_settles .arrow (by decide)).andThen (by decide) fun _ =>
    (Settles.separated (command_settles (by decide)) (by decide) (by decide)
      (mark_settles .comma (by decide)) (by decide) (command_settles (by decide))).committed.single

theorem alternativeLabel_settles : Settles true alternativeLabel (.sequence [.mark .hash, .name])
    [⟨.free, .nothing⟩, ⟨.free, .paren⟩] :=
  (mark_settles .hash (by decide)).andThen (by decide) fun _ =>
    (identifier_settles (by decide)).committed.single

theorem alternative_settles
    (inner : Settles false block (.notion .alternatives) (Notion.entries .alternatives)) :
    Settles tried (alternative block) (.notion .alternative) (Notion.entries .alternative) :=
  .notion ((elementOptions_settles.mono (by decide)).optional.andThen (by decide) fun _ =>
    (Settles.many (by decide) ((element_settles inner).mono (by decide))).andThen (by decide)
      fun _ => (alternativeLabel_settles.mono (by decide)).optional.andThen (by decide) fun _ =>
        (commands_settles.mono (by decide)).optional.andThen (by decide) fun _ => .succeed _)

theorem block_settles :
    Settles false Parse.block (.notion .alternatives) (Notion.entries .alternatives) :=
  .recursive (by decide) fun _ inner => .notion
    (Settles.separated (alternative_settles inner) (by decide) (by decide)
      (mark_settles .bar (by decide)) (by decide) ((alternative_settles inner).mono (by decide)))

theorem handler_settles : Settles true handler .handler phases := by
  have catching : Settles true catchHandler (.sequence [.keyword .catching, .charSet, .action])
      phases :=
    (keyword_settles .catching (.inl rfl)).andThen rfl fun _ =>
      (bracketed_settles (.inl rfl)).andThen rfl fun _ =>
        (actionText_settles (.inl rfl)).andThen rfl fun _ => .succeed _
  have finishing : Settles true finalHandler (.sequence [.keyword .finishing, .action]) phases :=
    (keyword_settles .finishing (.inl rfl)).andThen rfl fun _ =>
      (actionText_settles (.inl rfl)).andThen rfl fun _ => .succeed _
  exact catching.orElse finishing

theorem modifier_settles : Settles true modifier .modifier phases :=
  ((keyword_settles .fragment (.inl rfl)).map _).orElse
    (((keyword_settles .publicAccess (.inl rfl)).map _).orElse
      (((keyword_settles .privateAccess (.inl rfl)).map _).orElse
        ((keyword_settles .protectedAccess (.inl rfl)).map _)))

theorem rulePart_settles : Settles true rulePart (.choice .optionsBlock [.notion .namedAction])
    [⟨.free, .nothing⟩, ⟨.free, .item⟩] :=
  ((optionsBlock_settles.mono (by decide)).map _).orElse
    ((namedAction_settles.mono (by decide)).map _)

theorem bracketedClause_settles (word : Keyword) :
    Settles true ((keyword word).andThen fun _ => bracketed) (.sequence [.keyword word, .charSet])
      phases :=
  (keyword_settles word (.inl rfl)).andThen rfl fun _ => (bracketed_settles (.inl rfl)).single

theorem throws_settles : Settles true
    ((keyword .throws).andThen fun _ => separated identifier (mark .comma))
    (.sequence [.keyword .throws, .separated .name (.mark .comma)]) [Phase.start] :=
  (keyword_settles .throws (by decide)).andThen (by decide) fun _ =>
    (Settles.separated (identifier_settles (by decide)) (by decide) (by decide)
      (mark_settles .comma (by decide)) (by decide) (identifier_settles (by decide))).single

theorem rule_settles : Settles false rule (.notion .rule) (Notion.entries .rule) :=
  .notion ((Settles.many (by decide) modifier_settles).andThen (by decide) fun _ =>
    ((identifier_settles (by decide)).expecting _).andThen (by decide) fun _ =>
    (bracketed_settles (by decide)).optional.andThen (by decide) fun _ =>
    (bracketedClause_settles .returns).optional.andThen (by decide) fun _ =>
    (throws_settles.mono (by decide)).optional.andThen (by decide) fun _ =>
    (bracketedClause_settles .locals).optional.andThen (by decide) fun _ =>
    (Settles.many (by decide) (rulePart_settles.mono (by decide))).andThen (by decide) fun _ =>
    (mark_settles .colon (by decide)).andThen (by decide) fun _ =>
    (block_settles.mono (by decide)).andThen (by decide) fun _ =>
    ((mark_settles .semicolon (by decide)).expecting _).andThen (by decide) fun _ =>
    (Settles.many (by decide) handler_settles).andThen (by decide) fun _ => .succeed _)

theorem importedGrammar_settles (calm : tried = true ∨ Phase.Calm phases) :
    Settles tried importedGrammar (.notion .delegate) phases :=
  .notion (assignment_settles (identifier_settles (.inl rfl)) rfl calm _)

theorem importList_settles : Settles true importList
    (.sequence [.keyword .importing, .separated (.notion .delegate) (.mark .comma),
      .mark .semicolon]) [Phase.start] :=
  (keyword_settles .importing (by decide)).andThen (by decide) fun _ =>
    ((Settles.separated (importedGrammar_settles (by decide)) (by decide) (by decide)
      (mark_settles .comma (by decide)) (by decide) (importedGrammar_settles (by decide))).andThen
        (by decide) fun _ => (mark_settles .semicolon (by decide)).andThen (by decide) fun _ =>
          .succeed _).committed

theorem nameBlock_settles (word : Keyword) (calm : Phase.Calm ((Form.keyword word).ends phases)) :
    Settles true (nameBlock word) (.sequence [.keyword word, .action]) phases :=
  (keyword_settles word (.inl rfl)).andThen rfl fun _ =>
    (actionText_settles (.inr calm)).committed.andThen rfl fun _ => .succeed _

theorem prequel_settles : Settles true prequel (.notion .prequel) (Notion.entries .prequel) :=
  .notion (((optionsBlock_settles.mono (by decide)).map _).orElse ((importList_settles.map _).orElse
    (((nameBlock_settles .tokens (by decide)).map _).orElse
      (((nameBlock_settles .channels (by decide)).map _).orElse
        ((namedAction_settles.mono (by decide)).map _)))))

theorem modeDeclaration_settles :
    Settles true modeDeclaration (.notion .mode) (Notion.entries .mode) :=
  .notion ((keyword_settles .mode (by decide)).andThen (by decide) fun _ =>
    ((identifier_settles (by decide)).andThen (by decide) fun _ =>
      (mark_settles .semicolon (by decide)).andThen (by decide) fun _ => .succeed _).committed)

theorem fileSection_settles : Settles false fileSection (.choice (.notion .mode) [.notion .rule])
    [Phase.start] :=
  (modeDeclaration_settles.map _).orElse (rule_settles.map _).committed

theorem header_settles : Settles false header .header [Phase.start] := by
  have kind : Settles true grammarKind (.choice (.keyword .lexer) [.keyword .parser])
      [Phase.start] :=
    ((keyword_settles .lexer (by decide)).map _).orElse
      ((keyword_settles .parser (by decide)).map _)
  exact kind.optional.andThen (by decide) fun kind =>
    ((keyword_settles .grammar (by decide)).expecting _).andThen (by decide) fun _ =>
      ((identifier_settles (by decide)).andThen (by decide) fun name =>
        (mark_settles .semicolon (by decide)).andThen (by decide) fun _ => .succeed _).committed

theorem grammar_settles : Settles false grammar (.notion .file) [Phase.start] := by
  refine (header_settles.andThen (by decide) fun opening =>
    (Settles.many (by decide) (prequel_settles.mono (by decide))).andThen (by decide) fun found =>
      (Settles.exhaust rfl (by decide) (fileSection_settles.mono (by decide))).andThen (by decide)
        fun _ => .succeed _).congr ?_
  exact fun _ => .whole_file

end Railroad.Parse
