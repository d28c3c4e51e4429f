import Railroad.Proofs.Grammar.Formed
import Railroad.Proofs.Reading.Gathers

/-!
# What reading keeps

The tokens of the tree that is read from the body of a rule are those of the source that are not
passed over, in the order of the source.
-/

namespace Railroad

open Scan (wordToken)

/-- Of the lexemes, `own` is kept, whatever stands behind them. -/
def Keeps (taken : List Lexeme) (own : List Token) : Prop :=
  (∀ lexeme ∈ taken, lexeme.token.Shaped) →
    ∀ rest, kept (tokensOf taken ++ rest) = own ++ kept rest

/-- The same behind an opening parenthesis. -/
def KeepsInside (taken : List Lexeme) (own : List Token) : Prop :=
  (∀ lexeme ∈ taken, lexeme.token.Shaped) → ∀ rest,
    kept (.mark .openParen :: (tokensOf taken ++ rest)) = .mark .openParen :: (own ++ kept rest)

namespace Keeps

variable {front back : List Lexeme} {first second : List Token}

theorem nil : Keeps [] [] := fun _ _ => rfl

theorem append (head : Keeps front first) (tail : Keeps back second) :
    Keeps (front ++ back) (first ++ second) := by
  intro shaped rest
  rw [tokensOf_append, List.append_assoc,
    head fun lexeme member => shaped lexeme (List.mem_append_left _ member),
    tail fun lexeme member => shaped lexeme (List.mem_append_right _ member), List.append_assoc]

theorem plain {lexeme : Lexeme} {token : Token} (same : lexeme.token.Shaped → lexeme.token = token)
    (notLess : token ≠ .mark .less) (notOpen : token ≠ .mark .openParen) :
    Keeps [lexeme] [token] := by
  intro shaped rest
  have spelled := same (shaped lexeme (List.mem_singleton_self _))
  simp only [tokensOf, List.map_cons, List.map_nil, List.singleton_append, spelled]
  cases token with
  | mark sign =>
      cases sign <;> first | exact absurd rfl notLess | exact absurd rfl notOpen | rfl
  | _ => rfl

/-- Nothing is passed over behind a parenthesis if no header begins there. -/
theorem inside {own : List Token} (keeps : Keeps front own) {form : Form}
    (derives : Derives form (terminals front))
    (apart : form.Apart [.keyword .options, .mark .atSign, .mark .colon]) :
    KeepsInside front own := by
  intro shaped rest
  obtain ⟨lexeme, others, rfl, starts⟩ := Reader.first_of_derives derives apart.1
  have noHeader : opensHeader (tokensOf (lexeme :: others) ++ rest) = false := by
    have free := apart.2 _ starts
    rw [tokensOf, List.map_cons, List.cons_append, opensHeader.eq_def]
    split
    next same => exact absurd (by rw [(List.cons.inj same).1]; decide) free
    next same => exact absurd (by rw [(List.cons.inj same).1]; decide) free
    next same => exact absurd (by rw [(List.cons.inj same).1]; decide) free
    next => rfl
  simp only [kept, keptFrom, noHeader, Bool.false_eq_true, if_false]
  exact congrArg (_ :: ·) (keeps shaped rest)

end Keeps

theorem KeepsInside.append {front back : List Lexeme} {first second : List Token}
    (head : KeepsInside front first) (tail : Keeps back second) :
    KeepsInside (front ++ back) (first ++ second) := by
  intro shaped rest
  rw [tokensOf_append, List.append_assoc,
    head fun lexeme member => shaped lexeme (List.mem_append_left _ member),
    tail fun lexeme member => shaped lexeme (List.mem_append_right _ member), List.append_assoc]

namespace Reader

variable {α β : Type}

instance : Additive Keeps := ⟨Keeps.nil, Keeps.append⟩

/-- What the reader keeps, behind the tokens read before, makes up the tokens of its value. -/
def Writes (reader : Reader α) (before : List Token) (target : α → List Token) : Prop :=
  Yields reader fun taken value => ∃ own, Keeps taken own ∧ before ++ own = target value

namespace Writes

variable {reader other : Reader α} {before : List Token} {target : α → List Token}

theorem of_keeps (yields : Yields reader fun taken value => Keeps taken (target value)) :
    Writes reader [] target := Gathers.of_yields yields

theorem keeps (writes : Writes reader [] target) :
    Yields reader fun taken value => Keeps taken (target value) := Gathers.yields writes

theorem behind (writes : Writes reader [] target) (before : List Token) :
    Writes reader before fun value => before ++ target value := Gathers.behind writes before

theorem succeed {value : α} (same : before = target value) :
    Writes (Reader.succeed value) before target := Gathers.succeed same

theorem andThen {next : α → Reader β} {whole : β → List Token} (head : Writes reader [] target)
    (tail : ∀ value, Writes (next value) (before ++ target value) whole) :
    Writes (reader.andThen next) before whole := Gathers.andThen head tail

theorem map {whole : β → List Token} {change : α → β} (writes : Writes reader before target)
    (same : ∀ value, target value = whole (change value)) :
    Writes (reader.map change) before whole := Gathers.map writes same

theorem orElse (first : Writes reader before target) (next : Writes other before target) :
    Writes (reader.orElse other) before target := Gathers.orElse first next

theorem optional (writes : Writes reader [] target) :
    Writes reader.optional [] fun found => (found.map target).getD [] := Gathers.optional writes

theorem many (writes : Writes reader [] target) :
    Writes (Reader.many reader) [] fun values => values.flatMap target := Gathers.many writes

theorem separated {separator : Reader Unit} {sign : Token} (item : Writes reader [] target)
    (between : Writes separator [] fun _ => [sign]) :
    Writes (Reader.separated reader separator) [] fun values =>
      joinedBy sign (values.map target) := by
  refine Gathers.separated item between fun first others => ?_
  simp only [joinedBy, List.map_cons, List.flatMap_map, List.singleton_append]

theorem expecting (writes : Writes reader before target) (description : String) :
    Writes (reader.expecting description) before target := Gathers.expecting writes description

theorem committed (writes : Writes reader before target) : Writes reader.committed before target :=
  Gathers.committed writes

end Writes

end Reader

namespace Parse

open Reader

theorem mark_writes {sign : Mark} (notLess : sign ≠ .less) (notOpen : sign ≠ .openParen) :
    Writes (mark sign) [] fun _ => [.mark sign] := by
  refine .of_keeps ((Yields.token _).mono fun taken _ => ?_)
  rintro ⟨lexeme, rfl, same⟩
  refine .plain (fun _ => same) ?_ ?_
  · simpa using notLess
  · simpa using notOpen

/-- A token that is read for its text is kept. -/
theorem accept_writes {select : Lexeme → Option String} {token : String → Token}
    (selects : ∀ lexeme text, select lexeme = some text → lexeme.token = token text)
    (notLess : ∀ text, token text ≠ .mark .less) (notOpen : ∀ text, token text ≠ .mark .openParen)
    (expectation : Expectation) :
    Writes (Reader.accept expectation select) [] fun text => [token text] := by
  refine .of_keeps ((Yields.accept _ _).mono fun taken text => ?_)
  rintro ⟨lexeme, rfl, selected⟩
  exact .plain (fun _ => selects lexeme text selected) (notLess text) (notOpen text)

theorem stringLiteral_writes : Writes stringLiteral [] fun text => [.literal text] := by
  refine accept_writes (fun lexeme text selected => ?_) (by simp) (by simp) _
  split at selected <;> simp_all

theorem bracketed_writes : Writes bracketed [] fun text => [.charSet text] := by
  refine accept_writes (fun lexeme text selected => ?_) (by simp) (by simp) _
  split at selected <;> simp_all

theorem actionText_writes : Writes actionText [] fun text => [.action text] := by
  refine accept_writes (fun lexeme text selected => ?_) (by simp) (by simp) _
  split at selected <;> simp_all

theorem identifier_writes : Writes identifier [] fun name => [wordToken name.value] := by
  refine .of_keeps ((identifier_yields).mono fun taken name => ?_)
  rintro ⟨lexeme, rfl, -, known⟩
  exact .plain (fun shaped => (known shaped).1) (Scan.wordToken_ne_mark _ _)
    (Scan.wordToken_ne_mark _ _)

theorem elementOptions_writes : Writes elementOptions [] fun _ => [] := by
  refine .of_keeps ((elementOptions_decides).sound.mono fun taken _ derives _ rest => ?_)
  obtain ⟨front, tail, rfl, frontDerives, tailDerives⟩ :=
    split_of_derives (Derives.notion_iff.mp derives)
  obtain ⟨middle, back, rfl, middleDerives, backDerives⟩ := split_of_pair tailDerives
  obtain ⟨opening, rfl, opens⟩ := lexeme_of_derives frontDerives
  obtain ⟨closing, rfl, closes⟩ := lexeme_of_derives backDerives
  have inside : ∀ token ∈ tokensOf middle, Passing.options.closes token = false := by
    intro token member
    obtain ⟨lexeme, listed, rfl⟩ := List.mem_map.mp member
    have letter := middleDerives.mem_letters _ (List.mem_map_of_mem listed)
    rw [Passing.closes, beq_eq_false_iff_ne]
    intro closesToo
    rw [closesToo] at letter
    exact absurd letter (by decide)
  have skipped : keptFrom .options (tokensOf middle ++ .mark .greater :: rest) = kept rest :=
    keptFrom_passed Passing.noConfusion rfl inside rest
  simp only [tokensOf, List.map_append, List.map_cons, List.map_nil, List.append_assoc,
    Token.terminal_eq_mark.mp opens, Token.terminal_eq_mark.mp closes, List.cons_append,
    List.nil_append]
  exact skipped

theorem literalOrRange_writes : Writes literalOrRange [] Atom.tokens := by
  have last : Writes (mark .doubleDot >>= fun _ => committed stringLiteral) []
      fun text => [.mark .doubleDot, .literal text] :=
    (mark_writes (by decide) (by decide)).andThen fun _ => (stringLiteral_writes).committed.behind _
  refine (stringLiteral_writes).andThen fun first => last.optional.andThen fun found => ?_
  cases found with
  | none => exact .succeed rfl
  | some text => exact .succeed rfl

theorem reference_writes : Writes reference [] Atom.tokens := by
  refine (identifier_writes).andThen fun name => ?_
  split
  · refine (bracketed_writes).optional.andThen fun found => .succeed ?_
    cases found <;> rfl
  · exact .succeed rfl

theorem charSet_writes : Writes charSet [] Atom.tokens := (bracketed_writes).map fun _ => rfl

theorem setElement_writes : Writes setElement [] Atom.tokens := by
  have name : Writes (identifier.map fun name => Atom.reference name none) [] Atom.tokens :=
    (identifier_writes).map fun _ => rfl
  refine ((literalOrRange_writes).orElse ((charSet_writes).orElse name)).andThen fun value => ?_
  refine (elementOptions_writes).optional.andThen fun found => .succeed ?_
  cases found <;> simp

/-- What is read behind a parenthesis is kept, unless it begins like a header. -/
theorem parenthesized_writes {α : Type} {inner : Reader α} {form : Form} {before : List Token}
    {target : α → List Token} (writes : Writes inner [] target) (sound : Sound inner form)
    (apart : form.Apart [.keyword .options, .mark .atSign, .mark .colon]) :
    Writes ((mark .openParen).andThen fun _ => inner) before
      fun value => before ++ .mark .openParen :: target value := by
  refine (Yields.andThen (Yields.token _) fun _ => writes.keeps.both sound).mono
    fun taken value => ?_
  rintro ⟨_, _, back, rfl, ⟨lexeme, rfl, same⟩, keeps, derives⟩
  have inside := keeps.inside derives apart
  refine ⟨.mark .openParen :: target value, fun shaped rest => ?_, rfl⟩
  have read := inside (fun lexeme member => shaped lexeme (List.mem_append_right _ member)) rest
  simpa [tokensOf, same] using read

theorem setBlock_writes :
    Writes setBlock [] fun atoms => .mark .openParen ::
      (joinedBy (.mark .bar) (atomTokens atoms) ++ [.mark .closeParen]) := by
  have inner : Writes ((separated setElement (mark .bar)).andThen fun atoms =>
      (mark .closeParen).andThen fun _ => Reader.succeed atoms) []
      fun atoms => joinedBy (.mark .bar) (atomTokens atoms) ++ [.mark .closeParen] := by
    refine ((setElement_writes).separated (mark_writes (by decide) (by decide))).andThen fun atoms =>
      (mark_writes (by decide) (by decide)).andThen fun _ => .succeed ?_
    rw [atomTokens_eq_map, List.nil_append]
  have sound := ((setElement_decides).toRecognizes.separated (mark_decides .bar) (by decide)).sound.andThen
    fun atoms => (mark_decides .closeParen).sound.andThen fun _ => Sound.succeed atoms
  exact parenthesized_writes inner sound (by decide)

theorem exclusion_writes : Writes exclusion [] Atom.tokens := by
  have item : Writes (setElement.map Atom.excluding) [.mark .tilde] Atom.tokens :=
    ((setElement_writes).behind _).map fun _ => rfl
  have list : Writes (setBlock.map Atom.excludingAny) [.mark .tilde] Atom.tokens :=
    ((setBlock_writes).behind _).map fun _ => rfl
  exact (mark_writes (by decide) (by decide)).andThen fun _ =>
    ((item.orElse list).expecting _).committed

theorem wildcard_writes : Writes wildcard [] Atom.tokens :=
  (mark_writes (by decide) (by decide)).map fun _ => rfl

theorem atom_writes : Writes atom [] Atom.tokens := by
  refine ((literalOrRange_writes).orElse ((charSet_writes).orElse ((reference_writes).orElse
    ((exclusion_writes).orElse wildcard_writes)))).andThen fun value => ?_
  refine (elementOptions_writes).optional.andThen fun found => .succeed ?_
  cases found <;> simp

theorem repetition_writes : Writes repetition [] fun repeats => (Suffix.mk repeats true).tokens :=
  .orElse ((mark_writes (by decide) (by decide)).map fun _ => rfl)
    (.orElse ((mark_writes (by decide) (by decide)).map fun _ => rfl)
      ((mark_writes (by decide) (by decide)).map fun _ => rfl))

theorem suffix_writes : Writes suffix [] Suffix.tokens := by
  refine (repetition_writes).andThen fun repeats => ?_
  have sign : Writes (mark .question) [] _ := mark_writes (by decide) (by decide)
  refine sign.optional.andThen fun found => .succeed ?_
  cases found <;> rfl

theorem labelOperator_writes :
    Writes labelOperator [] fun additive => [.mark (if additive then .plusEquals else .equals)] :=
  .orElse ((mark_writes (by decide) (by decide)).map fun _ => rfl)
    ((mark_writes (by decide) (by decide)).map fun _ => rfl)

theorem actionElement_writes : Writes actionElement [] Element.tokens := by
  refine (actionText_writes).andThen fun code => ?_
  have sign : Writes (mark .question) [] _ := mark_writes (by decide) (by decide)
  refine sign.optional.andThen fun predicate => ?_
  refine (elementOptions_writes).optional.andThen fun found => .succeed ?_
  cases predicate <;> cases found <;> rfl

theorem groupHeader_keepsInside {taken : List Lexeme}
    (derives : Derives .groupHeader (terminals taken)) : KeepsInside taken [] := by
  intro _ rest
  have header : opensHeader (tokensOf taken ++ rest) = true := by
    obtain ⟨lexeme, others, rfl, starts⟩ := first_of_derives derives rfl
    have listed : lexeme.token.terminal ∈
        [.keyword .options, .mark .atSign, .mark .colon] := starts
    simp only [List.mem_cons, List.not_mem_nil, or_false, Token.terminal_eq_keyword,
      Token.terminal_eq_mark] at listed
    rw [tokensOf, List.map_cons, List.cons_append]
    rcases listed with same | same | same <;> rw [same] <;> rfl
  have parts : Derives (.sequence ([.optional .optionsBlock, .many (.notion .namedAction)] ++
    [.mark .colon])) (terminals taken) := derives
  obtain ⟨front, back, rfl, frontDerives, backDerives⟩ := split_of_append parts
  obtain ⟨colon, rfl, ends⟩ := lexeme_of_derives (Derives.sequence_singleton_iff.mp backDerives)
  have inside : ∀ token ∈ tokensOf front, Passing.header.closes token = false := by
    intro token member
    obtain ⟨lexeme, listed, rfl⟩ := List.mem_map.mp member
    have letter := frontDerives.mem_letters _ (List.mem_map_of_mem listed)
    rw [Passing.closes, beq_eq_false_iff_ne]
    intro closesToo
    rw [closesToo] at letter
    exact absurd letter (by decide)
  have skipped : keptFrom .header (tokensOf front ++ .mark .colon :: rest) = kept rest :=
    keptFrom_passed Passing.noConfusion rfl inside rest
  simp only [tokensOf, List.map_append, List.map_cons, List.map_nil, List.append_assoc,
    Token.terminal_eq_mark.mp ends, List.cons_append, List.nil_append] at header ⊢
  simp only [kept, keptFrom, header, if_true]
  exact congrArg (_ :: ·) skipped

variable {block : Reader Block}

/-- What is assumed of the reader of blocks inside groups. -/
def ReadsBlock (block : Reader Block) : Prop :=
  Sound block (.notion .alternatives) ∧ Writes block [] blockTokens

theorem group_writes (reads : ReadsBlock block) :
    Writes (group block) [] fun found => (Content.group found).tokens := by
  obtain ⟨sound, writes⟩ := reads
  have close : Writes (mark .closeParen) [] _ := mark_writes (by decide) (by decide)
  have inner : Writes (block.andThen fun found => (mark .closeParen).andThen fun _ =>
      Reader.succeed found) [] fun found => blockTokens found ++ [.mark .closeParen] :=
    writes.andThen fun found => close.andThen fun _ => .succeed rfl
  have innerSound := sound.andThen fun found =>
    (mark_decides .closeParen).sound.andThen fun _ => Sound.succeed found
  have whole := Yields.andThen (Yields.token (.mark .openParen)) fun _ => Yields.committed
    (Yields.andThen (groupHeader_recognizes).sound.optional fun _ => inner.keeps.both innerSound)
  refine .of_keeps (whole.mono fun taken found => ?_)
  rintro ⟨_, _, _, rfl, ⟨lexeme, rfl, same⟩, _, front, back, rfl, header, keeps, derives⟩
  have inside : KeepsInside (front ++ back) (blockTokens found ++ [.mark .closeParen]) := by
    rcases Derives.optional_iff.mp header with none | header
    · obtain rfl : front = [] := List.map_eq_nil_iff.mp none
      exact keeps.inside derives (by decide)
    · exact (groupHeader_keepsInside header).append keeps
  intro shaped rest
  have read := inside (fun lexeme member => shaped lexeme (List.mem_append_right _ member)) rest
  simpa [tokensOf, same, Content.tokens, blockTokens] using read

theorem atomOrGroup_writes (reads : ReadsBlock block) :
    Writes (atomOrGroup block) [] Content.tokens :=
  .orElse ((atom_writes).map fun _ => rfl) ((group_writes reads).map fun _ => rfl)

theorem labeledElement_writes (reads : ReadsBlock block) :
    Writes (labeledElement block) [] Element.tokens := by
  refine (identifier_writes).andThen fun name => (labelOperator_writes).andThen fun additive =>
    .committed ?_
  refine ((atomOrGroup_writes reads).expecting _).andThen fun content =>
    (suffix_writes).optional.andThen fun found => .succeed ?_
  cases found <;> rfl

theorem unlabeledElement_writes (reads : ReadsBlock block) :
    Writes (unlabeledElement block) [] Element.tokens := by
  refine (atomOrGroup_writes reads).andThen fun content =>
    (suffix_writes).optional.andThen fun found => .succeed ?_
  cases found <;> rfl

theorem element_writes (reads : ReadsBlock block) : Writes (element block) [] Element.tokens :=
  (labeledElement_writes reads).orElse
    ((unlabeledElement_writes reads).orElse actionElement_writes)

theorem alternativeLabel_writes :
    Writes alternativeLabel [] fun name => [.mark .hash, wordToken name.value] :=
  (mark_writes (by decide) (by decide)).andThen fun _ => (identifier_writes).committed.behind _

theorem argumentText_writes : Writes argumentText [] fun text => [argumentToken text] := by
  refine .of_keeps ((argumentText_yields).mono fun taken text => ?_)
  rintro ⟨lexeme, rfl, same, -⟩
  exact .plain same (argumentToken_ne_mark _ _) (argumentToken_ne_mark _ _)

theorem commandArgument_writes :
    Writes commandArgument [] fun text =>
      [.mark .openParen, argumentToken text, .mark .closeParen] := by
  have close : Writes (mark .closeParen) [] _ := mark_writes (by decide) (by decide)
  have inner : Writes (argumentText.andThen fun text => (mark .closeParen).andThen fun _ =>
      Reader.succeed text) [] fun text => [argumentToken text, .mark .closeParen] :=
    (argumentText_writes).andThen fun text => close.andThen fun _ => .succeed rfl
  have sound := (argumentText_decides).sound.andThen fun text =>
    (mark_decides .closeParen).sound.andThen fun _ => Sound.succeed text
  exact parenthesized_writes inner sound (by decide)

theorem command_writes : Writes command [] Command.tokens := by
  have modeName : Writes ((keyword .mode).giving "mode") [] fun name => [wordToken name] := by
    refine .of_keeps (((Yields.token _).giving "mode").mono fun taken name => ?_)
    rintro ⟨rfl, _, lexeme, rfl, same⟩
    exact .plain (fun _ => same.trans rfl) (by decide) (by decide)
  have name : Writes ((identifier.map Located.value).orElse ((keyword .mode).giving "mode")) []
      fun name => [wordToken name] :=
    .orElse ((identifier_writes).map fun _ => rfl) modeName
  refine name.andThen fun name => (commandArgument_writes).optional.andThen fun found =>
    .succeed ?_
  cases found <;> rfl

theorem commands_writes : Writes commands []
    fun found => .mark .arrow :: joinedBy (.mark .comma) (found.map Command.tokens) :=
  (mark_writes (by decide) (by decide)).andThen fun _ =>
    ((command_writes).separated (mark_writes (by decide) (by decide))).committed.behind _

theorem commands_ne_nil : Yields commands fun _ found => found ≠ [] := by
  have list : Yields (separated command (mark .comma)) fun _ found => found ≠ [] := by
    refine (Yields.separated (command_writes).keeps (Yields.token _)).mono fun taken found => ?_
    rintro ⟨first, others, _, _, rfl, -⟩
    exact List.cons_ne_nil first others
  refine (Yields.andThen (Yields.token _) fun _ => list.committed).mono fun _ found => ?_
  rintro ⟨_, _, _, _, _, some⟩
  exact some

theorem optionalCommands_writes : Writes commands.optional [] fun found =>
    if (found.getD []).isEmpty then []
    else .mark .arrow :: joinedBy (.mark .comma) ((found.getD []).map Command.tokens) := by
  refine .of_keeps ((Yields.optional ((commands_writes).keeps.both commands_ne_nil)).mono
    fun taken found => ?_)
  rintro (⟨rfl, rfl⟩ | ⟨commands, rfl, keeps, some⟩)
  · exact .nil
  · rw [Option.getD_some, if_neg (by simpa using some)]
    exact keeps

theorem alternative_writes (reads : ReadsBlock block) :
    Writes (alternative block) [] Alternative.tokens := by
  refine (elementOptions_writes).optional.andThen fun options =>
    (element_writes reads).many.andThen fun elements =>
      (alternativeLabel_writes).optional.andThen fun label =>
        (optionalCommands_writes).andThen fun commands => .succeed ?_
  cases options <;> cases label <;> simp [Alternative.tokens, elementTokens_eq_flatMap]

theorem block_reads : ReadsBlock Parse.block := by
  suffices whole : Yields Parse.block fun taken found =>
      Derives (.notion .alternatives) (terminals taken) ∧ Keeps taken (blockTokens found) from
    ⟨whole.mono fun _ _ both => both.1, .of_keeps (whole.mono fun _ _ both => both.2)⟩
  refine Yields.recursive fun inner both => ?_
  have reads : ReadsBlock inner :=
    ⟨both.mono fun _ _ spells => spells.1, .of_keeps (both.mono fun _ _ spells => spells.2)⟩
  have sound : Sound (separated (alternative inner) (mark .bar)) (.notion .alternatives) :=
    .notion ((alternative_sound reads.1).separated (mark_decides .bar).sound)
  have bar : Writes (mark .bar) [] _ := mark_writes (by decide) (by decide)
  have writes : Writes (separated (alternative inner) (mark .bar)) [] blockTokens := by
    refine .of_keeps (((alternative_writes reads).separated bar).keeps.mono fun _ found keeps => ?_)
    rw [blockTokens, alternativeTokens_eq_map]
    exact keeps
  exact Yields.both sound writes.keeps

end Parse

end Railroad
