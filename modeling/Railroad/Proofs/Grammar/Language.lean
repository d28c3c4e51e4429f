import Railroad.Proofs.Grammar.Bodies

/-!
# Readers of grammar files

Rules and whole files, and the theorem that a file is read if and only if it is a word of the
grammar language.
-/

namespace Railroad

/-- What a file begins with. -/
def Form.header : Form :=
  sequence [optional (choice (keyword .lexer) [keyword .parser]), keyword .grammar, name,
    mark .semicolon]

theorem Derives.whole_file {word : List Terminal}
    (derives : Derives (.both .header (.sequence [.many (.notion .prequel),
      .many (.choice (.notion .mode) [.notion .rule])])) word) : Derives (.notion .file) word := by
  obtain ⟨front, back, rfl, head, tail⟩ := both_iff.mp derives
  exact .notion (head.sequence_append tail)

namespace Parse

open Reader

theorem catchHandler_decides :
    Decides catchHandler (.sequence [.keyword .catching, .charSet, .action]) [] :=
  (keyword_decides .catching).andThen (by decide) fun _ =>
    (bracketed_decides).toRecognizes.andThen (by decide) fun _ =>
      (actionText_decides).toRecognizes.andThen (by decide) fun _ => .succeed _

theorem finalHandler_decides :
    Decides finalHandler (.sequence [.keyword .finishing, .action]) [] :=
  (keyword_decides .finishing).andThen (by decide) fun _ =>
    (actionText_decides).toRecognizes.andThen (by decide) fun _ => .succeed _

theorem handler_decides : Decides handler .handler [] :=
  (catchHandler_decides).orElse (by decide) finalHandler_decides

theorem modifier_decides : Decides modifier .modifier [] :=
  ((keyword_decides .fragment).giving _).orElse (by decide)
    (((keyword_decides .publicAccess).giving _).orElse (by decide)
      (((keyword_decides .privateAccess).giving _).orElse (by decide)
        ((keyword_decides .protectedAccess).giving _)))

theorem rulePart_decides : Decides rulePart (.choice .optionsBlock [.notion .namedAction]) [] :=
  ((optionsBlock_decides).map _).orElse (by decide) ((namedAction_decides).map _)

/-- A keyword with brackets behind it. -/
theorem bracketedClause_decides (word : Keyword) :
    Decides ((keyword word).andThen fun _ => bracketed) (.sequence [.keyword word, .charSet]) [] :=
  (keyword_decides word).andThen (by decide) fun _ => (bracketed_decides).toRecognizes.single

theorem throws_decides :
    Decides ((keyword .throws).andThen fun _ => separated identifier (mark .comma))
      (.sequence [.keyword .throws, .separated .name (.mark .comma)]) [.mark .comma] :=
  (keyword_decides .throws).andThen (by decide) fun _ =>
    ((identifier_decides).toRecognizes.separated (mark_decides .comma) (by decide)).single

theorem rule_recognizes : Recognizes rule (.notion .rule) Form.handler.starts :=
  .notion ((modifier_decides).many (by decide) |>.andThen (by decide) fun _ =>
    ((identifier_decides).toRecognizes.expecting _).andThen (by decide) fun _ =>
    (bracketed_decides).optional.andThen (by decide) fun _ =>
    (bracketedClause_decides .returns).optional.andThen (by decide) fun _ =>
    (throws_decides).optional.andThen (by decide) fun _ =>
    (bracketedClause_decides .locals).optional.andThen (by decide) fun _ =>
    (rulePart_decides).many (by decide) |>.andThen (by decide) fun _ =>
    (mark_decides .colon).toRecognizes.andThen (by decide) fun _ =>
    (block_recognizes).andThen (by decide) fun _ =>
    ((mark_decides .semicolon).toRecognizes.expecting _).andThen (by decide) fun _ =>
    (handler_decides).many (by decide) |>.andThen (by decide) fun _ => .succeed _)

theorem importedGrammar_recognizes :
    Recognizes importedGrammar (.notion .delegate) [.mark .equals] :=
  .notion (assignment_recognizes identifier_decides _)

theorem importList_decides : Decides importList
    (.sequence [.keyword .importing, .separated (.notion .delegate) (.mark .comma),
      .mark .semicolon]) [] :=
  (keyword_decides .importing).andThen (by decide) fun _ => .committed
    (((importedGrammar_recognizes).separated (mark_decides .comma) (by decide)).andThen (by decide)
      fun _ => (mark_decides .semicolon).toRecognizes.andThen (by decide) fun _ => .succeed _)

theorem nameBlock_decides (word : Keyword) :
    Decides (nameBlock word) (.sequence [.keyword word, .action]) [] :=
  (keyword_decides word).andThen (by decide) fun _ =>
    (actionText_decides).toRecognizes.committed.andThen (by decide) fun _ => .succeed _

theorem prequel_decides : Decides prequel (.notion .prequel) [] :=
  .notion (((optionsBlock_decides).map _).orElse (by decide)
    (((importList_decides).map _).orElse (by decide)
      (((nameBlock_decides .tokens).map _).orElse (by decide)
        (((nameBlock_decides .channels).map _).orElse (by decide) ((namedAction_decides).map _)))))

theorem modeDeclaration_decides : Decides modeDeclaration (.notion .mode) [] :=
  .notion ((keyword_decides .mode).andThen (by decide) fun _ => .committed
    ((identifier_decides).toRecognizes.andThen (by decide) fun _ =>
      (mark_decides .semicolon).toRecognizes.andThen (by decide) fun _ => .succeed _))

theorem grammarKind_decides :
    Decides grammarKind (.choice (.keyword .lexer) [.keyword .parser]) [] :=
  ((keyword_decides .lexer).giving _).orElse (by decide) ((keyword_decides .parser).giving _)

theorem header_recognizes : Recognizes header .header [] :=
  (grammarKind_decides).optional.andThen (by decide) fun _ =>
    ((keyword_decides .grammar).toRecognizes.expecting _).andThen (by decide) fun _ => .committed
      ((identifier_decides).toRecognizes.andThen (by decide) fun _ =>
        (mark_decides .semicolon).toRecognizes.andThen (by decide) fun _ => .succeed _)

theorem fileSection_recognizes :
    Recognizes fileSection (.choice (.notion .mode) [.notion .rule]) Form.handler.starts where
  sound := ((modeDeclaration_decides).sound.map _).orElse ((rule_recognizes).sound.map _).committed
  complete bound := by
    have mode := (((modeDeclaration_decides).complete bound).map Section.mode).orElse_left
      (committed (rule.map Section.rule))
    have rule : Completes bound fileSection (.notion .rule) Form.handler.starts :=
      .orElse_right ((modeDeclaration_decides).misses.map _) (by decide)
        (((rule_recognizes).complete bound).map _).committed
    exact (mode.either rule).widen (by decide)

theorem fileSection_takes : Yields fileSection fun taken _ => taken ≠ [] :=
  (fileSection_recognizes).sound.mono fun _ _ derives none => derives.ne_nil rfl (none ▸ rfl)

theorem grammar_sound {lexemes rest : List Lexeme} {found : Grammar}
    (read : grammar lexemes = .done found rest) : Derives (.notion .file) (terminals lexemes) := by
  obtain ⟨_, _, readHeader, read⟩ := andThen_done read
  obtain ⟨_, _, readPrequels, read⟩ := andThen_done read
  obtain ⟨_, last, readSections, -⟩ := andThen_done read
  have sections := (fileSection_recognizes).sound
  obtain rfl : last = [] :=
    Yields.exhaust_nil fileSection_takes (fun _ _ some => some) readSections
  obtain ⟨front, rfl, frontDerives⟩ := (header_recognizes).sound readHeader
  obtain ⟨middle, rfl, middleDerives⟩ := (prequel_decides).sound.many readPrequels
  obtain ⟨back, rfl, backDerives⟩ := sections.exhaust rfl readSections
  simp only [terminals_append, List.append_nil]
  exact .whole_file (.both frontDerives (middleDerives.sequence_pair backDerives))

theorem grammar_complete {lexemes : List Lexeme}
    (derives : Derives (.notion .file) (terminals lexemes)) :
    ∃ found, grammar lexemes = .done found [] := by
  have split : Derives (.sequence ([.optional (.choice (.keyword .lexer) [.keyword .parser]),
      .keyword .grammar, .name, .mark .semicolon] ++
        [.many (.notion .prequel), .many (.choice (.notion .mode) [.notion .rule])]))
      (terminals lexemes) := Derives.notion_iff.mp derives
  obtain ⟨front, tail, rfl, headDerives, tailDerives⟩ := split_of_append split
  obtain ⟨middle, back, rfl, middleDerives, backDerives⟩ := split_of_pair tailDerives
  have clear : Clear (Form.notion .prequel).starts back := by
    have atEnd := Clear.nil (Form.notion .prequel).starts
    exact List.append_nil back ▸ atEnd.append backDerives (by decide)
  obtain ⟨head, readHeader⟩ := (header_recognizes).complete _ (Nat.le_refl _) headDerives
    (fun _ _ => List.not_mem_nil : Clear [] (middle ++ back))
  obtain ⟨prequels, readPrequels⟩ :=
    ((prequel_decides).many (by decide)).complete _ (Nat.le_refl _) middleDerives
      (clear.of_subset (by decide))
  obtain ⟨sections, readSections⟩ :=
    ((fileSection_recognizes).complete _).exhaust (by decide) (Nat.le_refl _) backDerives
  exact ⟨_, (andThen_of_done readHeader _).trans
    ((andThen_of_done readPrequels _).trans (andThen_of_done readSections _))⟩

end Parse

namespace Grammar

theorem ofLexemes_eq_ok {lexemes : List Lexeme} {found : Grammar} :
    Grammar.ofLexemes lexemes = .ok found ↔
      ∃ rest, Parse.grammar (significant lexemes) = .done found rest := by
  rw [Grammar.ofLexemes]
  cases Parse.grammar (significant lexemes) with
  | done value rest => simp
  | missed setback => simp
  | failed setback => simp

theorem parse_eq_ok {source : String} {found : Grammar} : Grammar.parse source = .ok found ↔
    ∃ lexemes rest, tokenize source = .ok lexemes ∧
      Parse.grammar (significant lexemes) = .done found rest := by
  rw [Grammar.parse]
  cases tokenize source with
  | error rejection => simp
  | ok lexemes =>
      simp only [Except.ok.injEq, exists_and_left, exists_eq_left', ← ofLexemes_eq_ok]
      cases Grammar.ofLexemes lexemes with
      | ok value => simp
      | error diagnostic => simp

theorem derives_of_ofLexemes {lexemes : List Lexeme} {found : Grammar}
    (parsed : Grammar.ofLexemes lexemes = .ok found) :
    Derives (.notion .file) (terminals (significant lexemes)) := by
  obtain ⟨rest, read⟩ := ofLexemes_eq_ok.mp parsed
  exact Parse.grammar_sound read

theorem ofLexemes_of_derives {lexemes : List Lexeme}
    (derives : Derives (.notion .file) (terminals (significant lexemes))) :
    ∃ found, Grammar.ofLexemes lexemes = .ok found := by
  obtain ⟨found, read⟩ := Parse.grammar_complete derives
  exact ⟨found, ofLexemes_eq_ok.mpr ⟨[], read⟩⟩

/-- A grammar is read from exactly those lexemes that are a file of the grammar language. -/
theorem ofLexemes_iff (lexemes : List Lexeme) :
    (∃ found, Grammar.ofLexemes lexemes = .ok found) ↔
      Derives (.notion .file) (terminals (significant lexemes)) := by
  constructor
  · rintro ⟨found, parsed⟩
    exact derives_of_ofLexemes parsed
  · exact ofLexemes_of_derives

end Grammar

end Railroad
