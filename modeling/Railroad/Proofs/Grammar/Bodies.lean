import Railroad.Proofs.Grammar.Atoms

/-!
# Readers of rule bodies

Elements, alternatives and blocks.  A block is complete for input of some length because the
blocks inside it are read from shorter input.
-/

namespace Railroad

/-- Terminals by which an alternative may go on. -/
def Form.alternativeMore : List Terminal :=
  .mark .hash :: .mark .arrow :: .mark .comma :: elementMore

/-- Terminals by which alternatives may go on. -/
def Form.alternativesMore : List Terminal := .mark .bar :: alternativeMore

/-- What an element matches. -/
def Form.content : Form := choice (notion .atom) [notion .block]

/-- An element that is only an action. -/
def Form.actionElement : Form :=
  sequence [action, optional (mark .question), optional (notion .elementOptions)]

namespace Derives

variable {word : List Terminal}

/-- Elements begin with a labeled one, an unlabeled one or an action, unless there are none. -/
theorem elements_cases (derives : Derives (.many (.notion .element)) word) : word = [] ∨
    Derives (.sequence [.elementLabel, .content, .afterAtom]) word ∨
      Derives (.sequence [.content, .afterAtom]) word ∨
        Derives (.sequence [.actionElement, .many (.notion .element)]) word := by
  rcases many_iff.mp derives with none | ⟨front, back, rfl, element, others⟩
  · exact Or.inl none
  rcases either_iff.mp (notion_iff.mp element) with item | action
  · obtain ⟨label, body, rfl, labelDerives, bodyDerives⟩ := sequence_cons_iff.mp item
    obtain ⟨content, suffix, rfl, contentDerives, suffixDerives⟩ := sequence_pair_iff.mp bodyDerives
    have after : Derives .afterAtom (suffix ++ back) := suffixDerives.sequence_pair others
    rw [List.append_assoc, List.append_assoc]
    rcases optional_iff.mp labelDerives with rfl | labelDerives
    · exact Or.inr (Or.inr (Or.inl (contentDerives.sequence_pair after)))
    · exact Or.inr (Or.inl (labelDerives.sequence_cons (contentDerives.sequence_pair after)))
  · exact Or.inr (Or.inr (Or.inr (action.sequence_pair others)))

/-- An element with a label, which is read before what it matches. -/
theorem labeled_element (derives : Derives (.both .name (.both
    (.choice (.mark .equals) [.mark .plusEquals]) (.sequence [.content, .optional .suffix]))) word) :
    Derives (.notion .element) word := by
  obtain ⟨name, later, rfl, nameDerives, derives⟩ := both_iff.mp derives
  obtain ⟨sign, later, rfl, signDerives, derives⟩ := both_iff.mp derives
  rw [← List.append_assoc]
  exact .notion (.left ((present (nameDerives.sequence_pair signDerives)).sequence_cons derives))

theorem unlabeled_element (derives : Derives (.sequence [.content, .optional .suffix]) word) :
    Derives (.notion .element) word :=
  .notion (.left ((absent : Derives (.optional .elementLabel) []).sequence_cons derives))

theorem action_element (derives : Derives .actionElement word) : Derives (.notion .element) word :=
  .notion (.right derives)

/-- Behind a name in front of elements, there is no assignment. -/
theorem content_name (derives : Derives (.sequence [.content, .afterAtom]) (.name :: word)) :
    Derives .afterName word := by
  obtain ⟨content, after, split, contentDerives, afterDerives⟩ := sequence_pair_iff.mp derives
  obtain ⟨others, rfl, rfl⟩ := contentDerives.enter split rfl
  rcases either_iff.mp contentDerives with atom | block
  · rcases atom.atom_cases with refers | standing
    · obtain ⟨front, options, split, frontDerives, optionsDerive⟩ := sequence_pair_iff.mp refers
      obtain ⟨name, arguments, rfl, nameDerives, argumentsDerive⟩ :=
        sequence_pair_iff.mp frontDerives
      rw [terminal_iff.mp nameDerives] at split
      obtain rfl := (List.cons.inj split).2
      exact (argumentsDerive.afterName optionsDerive afterDerives (List.append_assoc ..)).1
    · exact absurd standing.head_mem_starts (by decide)
  · exact absurd block.head_mem_starts (by decide)

end Derives

namespace Parse

open Reader

variable {bound : Nat} {block : Reader Block}

theorem repetition_decides :
    Decides repetition (.choice (.mark .question) [.mark .star, .mark .plus]) [] :=
  ((mark_decides .question).giving _).orElse (by decide)
    (((mark_decides .star).giving _).orElse (by decide) ((mark_decides .plus).giving _))

theorem suffix_decides : Decides suffix .suffix [.mark .question] :=
  (repetition_decides).andThen (by decide) fun _ =>
    (mark_decides .question).optional.andThen (by decide) fun _ => .succeed _

theorem groupHeader_recognizes : Recognizes groupHeader .groupHeader [] :=
  (optionsBlock_decides).optional.andThen (by decide) fun _ =>
    ((namedAction_decides).many (by decide)).andThen (by decide) fun _ =>
      (mark_decides .colon).toRecognizes.single

theorem groupHeader_misses : Misses groupHeader .groupHeader := by
  have sign : Misses (mark .colon) (.sequence [.mark .colon]) :=
    (mark_decides .colon).misses.of_subset (by decide)
  exact (optionsBlock_decides).misses.optional fun _ => (namedAction_decides).misses.many fun _ => sign

theorem group_sound (sound : Sound block (.notion .alternatives)) :
    Sound (group block) (.notion .block) :=
  .notion ((mark_decides .openParen).sound.andThen fun _ => .committed
    ((groupHeader_recognizes).sound.optional.andThen fun _ => sound.andThen fun _ =>
      (mark_decides .closeParen).sound.andThen fun _ => .succeed _))

theorem group_misses (block : Reader Block) : Misses (group block) (.notion .block) :=
  .notion ((mark_decides .openParen).misses.andThen _)

theorem group_completes (inner : ∀ size < bound,
    Completes size block (.notion .alternatives) Form.alternativesMore) :
    Completes bound (group block) (.notion .block) [] := by
  refine .notion (((mark_decides .openParen).complete bound).descend (.nil _ _)
    fun size _ smaller _ => .committed ?_)
  have header := Completes.optional groupHeader_misses ((groupHeader_recognizes).complete size)
  exact header.andThen (by decide) fun _ => (inner size (smaller rfl)).andThen (by decide) fun _ =>
    ((mark_decides .closeParen).complete size).andThen (.nil _ _) fun _ => .succeed _

theorem atomOrGroup_sound (sound : Sound block (.notion .alternatives)) :
    Sound (atomOrGroup block) .content :=
  ((atom_sound).map _).orElse ((group_sound sound).map _)

theorem atomOrGroup_misses (block : Reader Block) : Misses (atomOrGroup block) .content :=
  ((atom_misses).map _).orElse ((group_misses block).map _)

theorem atomOrGroup_leaves {word rest : List Lexeme}
    (inner : ∀ size < (word ++ rest).length,
      Completes size block (.notion .alternatives) Form.alternativesMore)
    (derives : Derives (.sequence [.content, .afterAtom]) (terminals word))
    (clear : Clear Form.elementMore rest) : Leaves (atomOrGroup block) .afterAtom word rest := by
  obtain ⟨taken, after, rfl, contentDerives, afterDerives⟩ := split_of_pair derives
  rcases Derives.either_iff.mp contentDerives with atomDerives | blockDerives
  · exact ((atom_leaves atomDerives afterDerives clear).map _).orElse_left _
  · obtain ⟨lexeme, others, rfl, starts⟩ := first_of_derives blockDerives rfl
    have opens : lexeme.token.terminal = .mark .openParen := List.mem_singleton.mp starts
    have free : lexeme.token.terminal ∉ (Form.notion .atom).starts := opens ▸ by decide
    obtain ⟨_, missed⟩ := ((atom_misses).map Content.atom) (.cons free (others ++ after ++ rest))
    have leaves : Leaves (group block) .afterAtom (lexeme :: others ++ after) rest :=
      .of_completes (group_completes inner) blockDerives rfl afterDerives fun _ _ => List.not_mem_nil
    exact .orElse_right missed (leaves.map _)

/-- A suffix behind the content is taken, and the elements are left. -/
theorem suffixed_leaves {α β : Type} {reader : Reader α} {word rest : List Lexeme}
    (leaves : Leaves reader .afterAtom word rest) (clear : Clear Form.elementMore rest)
    (finish : α → Option Suffix → β) :
    Leaves (reader.andThen fun value => suffix.optional.andThen fun found =>
      Reader.succeed (finish value found)) (.many (.notion .element)) word rest := by
  refine leaves.andThen fun value left derives => ?_
  obtain ⟨taken, elements, rfl, suffixDerives, elementsDerive⟩ := split_of_pair derives
  have clearSuffix : Clear (.mark .question :: Form.suffix.starts) (elements ++ rest) :=
    .append elementsDerive clear (by decide)
  obtain ⟨found, read⟩ := (suffix_decides).optional.complete _ (Nat.le_refl _) suffixDerives
    (clearSuffix.of_subset (by decide))
  refine ⟨finish value found, elements, ?_, elementsDerive, ?_⟩
  · rw [List.append_assoc]
    simp only [Reader.andThen, read, Reader.succeed]
  · rw [List.length_append]
    omega

theorem labelOperator_decides :
    Decides labelOperator (.choice (.mark .equals) [.mark .plusEquals]) [] :=
  ((mark_decides .equals).giving _).orElse (by decide) ((mark_decides .plusEquals).giving _)

theorem labeledElement_sound (sound : Sound block (.notion .alternatives)) :
    Sound (labeledElement block) (.notion .element) := by
  have body : Sound (labeledElement block) (.both .name (.both (.choice (.mark .equals)
      [.mark .plusEquals]) (.sequence [.content, .optional .suffix]))) :=
    (identifier_decides).sound.andThen fun _ => (labelOperator_decides).sound.andThen fun _ =>
      .committed (((atomOrGroup_sound sound).expecting _).andThen fun _ =>
        (suffix_decides).sound.optional.andThen fun _ => .succeed _)
  exact body.congr fun _ => .labeled_element

theorem unlabeledElement_sound (sound : Sound block (.notion .alternatives)) :
    Sound (unlabeledElement block) (.notion .element) := by
  have body : Sound (unlabeledElement block) (.sequence [.content, .optional .suffix]) :=
    (atomOrGroup_sound sound).andThen fun _ => (suffix_decides).sound.optional.andThen fun _ =>
      .succeed _
  exact body.congr fun _ => .unlabeled_element

theorem actionElement_recognizes :
    Recognizes actionElement .actionElement [.mark .question, .mark .less] :=
  (actionText_decides).toRecognizes.andThen (by decide) fun _ =>
    (mark_decides .question).optional.andThen (by decide) fun _ =>
      (elementOptions_decides).optional.andThen (by decide) fun _ => .succeed _

theorem element_sound (sound : Sound block (.notion .alternatives)) :
    Sound (element block) (.notion .element) :=
  Yields.orElse (labeledElement_sound sound) (Yields.orElse (unlabeledElement_sound sound)
    ((actionElement_recognizes).sound.congr fun _ => .action_element))

theorem element_misses (block : Reader Block) : Misses (element block) (.notion .element) := by
  have labeled : Misses (labeledElement block) (.notion .element) :=
    ((identifier_decides).misses.before _).of_subset (by decide)
  have unlabeled : Misses (unlabeledElement block) (.notion .element) :=
    ((atomOrGroup_misses block).before _).of_subset (by decide)
  have action : Misses actionElement (.notion .element) :=
    ((actionText_decides).misses.before _).of_subset (by decide)
  exact (labeled.orElse (unlabeled.orElse action)).of_subset (by decide)

/-- Without an assignment behind its name, an element is no labeled one. -/
theorem labeledElement_missed {word rest : List Lexeme} (block : Reader Block)
    (derives : Derives (.sequence [.content, .afterAtom]) (terminals word))
    (clear : Clear Form.elementMore rest) :
    ∃ setback, labeledElement block (word ++ rest) = .missed setback := by
  obtain ⟨lexeme, others, rfl, starts⟩ := first_of_derives derives rfl
  by_cases named : lexeme.token.terminal = .name
  · rw [terminals_cons, named] at derives
    have clearOthers : Clear [.mark .equals, .mark .plusEquals] (others ++ rest) :=
      .append derives.content_name clear (by decide)
    obtain ⟨name, read⟩ := (identifier_decides).toRecognizes.take named (others ++ rest)
    obtain ⟨setback, missed⟩ := (labelOperator_decides).misses clearOthers
    refine ⟨setback, ?_⟩
    rw [List.cons_append]
    simp only [labeledElement, bind_eq, Reader.andThen, read, missed]
  · have noName : Clear [.name] (lexeme :: (others ++ rest)) :=
      .cons (mt List.mem_singleton.mp named) _
    obtain ⟨setback, missed⟩ := (identifier_decides).misses noName
    refine ⟨setback, ?_⟩
    rw [List.cons_append]
    simp only [labeledElement, bind_eq, Reader.andThen, missed]

theorem labeledElement_leaves {word rest : List Lexeme}
    (inner : ∀ size < (word ++ rest).length,
      Completes size block (.notion .alternatives) Form.alternativesMore)
    (derives : Derives (.sequence [.elementLabel, .content, .afterAtom]) (terminals word))
    (clear : Clear Form.elementMore rest) :
    Leaves (labeledElement block) (.many (.notion .element)) word rest := by
  obtain ⟨label, item, rfl, labelDerives, itemDerives⟩ := split_of_derives derives
  obtain ⟨front, sign, rfl, nameDerives, signDerives⟩ := split_of_pair labelDerives
  obtain ⟨name, rfl, named⟩ := lexeme_of_derives nameDerives
  obtain ⟨identity, readName⟩ := (identifier_decides).toRecognizes.take named (sign ++ (item ++ rest))
  obtain ⟨additive, readSign⟩ := (labelOperator_decides).complete _ (Nat.le_refl _) signDerives
    (fun _ _ => List.not_mem_nil : Clear [] (item ++ rest))
  have innerItem : ∀ size < (item ++ rest).length,
      Completes size block (.notion .alternatives) Form.alternativesMore := by
    intro size smaller
    refine inner size ?_
    simp only [List.length_append] at smaller ⊢
    omega
  have content := (atomOrGroup_leaves innerItem itemDerives clear).expecting "labeled element"
  obtain ⟨value, next, read, nextDerives, shorter⟩ := (suffixed_leaves content clear
    fun content suffix => Element.mk content (some ⟨identity.value, additive⟩) suffix).committed
  refine ⟨value, next, ?_, nextDerives, ?_⟩
  · simp only [List.append_assoc, List.cons_append, List.nil_append, labeledElement, bind_eq, pure_eq]
    simp only [Reader.andThen, readName, readSign]
    exact read
  · simp only [List.length_append]
    omega

theorem unlabeledElement_leaves {word rest : List Lexeme}
    (inner : ∀ size < (word ++ rest).length,
      Completes size block (.notion .alternatives) Form.alternativesMore)
    (derives : Derives (.sequence [.content, .afterAtom]) (terminals word))
    (clear : Clear Form.elementMore rest) :
    Leaves (unlabeledElement block) (.many (.notion .element)) word rest :=
  suffixed_leaves (atomOrGroup_leaves inner derives clear) clear fun content suffix =>
    Element.mk content none suffix

theorem actionElement_leaves {word rest : List Lexeme}
    (derives : Derives (.sequence [.actionElement, .many (.notion .element)]) (terminals word))
    (clear : Clear Form.elementMore rest) :
    Leaves actionElement (.many (.notion .element)) word rest := by
  obtain ⟨action, elements, rfl, actionDerives, elementsDerive⟩ := split_of_pair derives
  exact .of_completes ((actionElement_recognizes).complete _) actionDerives rfl elementsDerive
    (.append elementsDerive clear (by decide))

theorem element_leaves {word rest : List Lexeme}
    (inner : ∀ size < (word ++ rest).length,
      Completes size block (.notion .alternatives) Form.alternativesMore)
    (some : word ≠ []) (derives : Derives (.many (.notion .element)) (terminals word))
    (clear : Clear Form.elementMore rest) :
    Leaves (element block) (.many (.notion .element)) word rest := by
  rcases derives.elements_cases with none | labeled | unlabeled | action
  · exact absurd (List.map_eq_nil_iff.mp none) some
  · exact (labeledElement_leaves inner labeled clear).orElse_left _
  · obtain ⟨_, missed⟩ := labeledElement_missed block unlabeled clear
    exact .orElse_right missed ((unlabeledElement_leaves inner unlabeled clear).orElse_left _)
  · have starts (other : Form) (free : .action ∉ other.starts) : Clear other.starts (word ++ rest) := by
      obtain ⟨lexeme, others, rfl, start⟩ := first_of_derives action rfl
      have isAction : lexeme.token.terminal = .action := List.mem_singleton.mp start
      exact .cons (isAction ▸ free) _
    obtain ⟨_, notLabeled⟩ : ∃ setback, labeledElement block (word ++ rest) = .missed setback :=
      (identifier_decides).misses.before _ (starts _ (by decide))
    obtain ⟨_, notUnlabeled⟩ : ∃ setback, unlabeledElement block (word ++ rest) = .missed setback :=
      (atomOrGroup_misses block).before _ (starts _ (by decide))
    exact .orElse_right notLabeled (.orElse_right notUnlabeled (actionElement_leaves action clear))

theorem elements_complete
    (inner : ∀ size < bound, Completes size block (.notion .alternatives) Form.alternativesMore) :
    Completes bound (many (element block)) (.many (.notion .element)) Form.elementMore :=
  .many_of_leaves (element_misses block) (by decide) fun _ _ fits some derives clear =>
    element_leaves (fun size smaller => inner size (Nat.lt_of_lt_of_le smaller fits)) some derives clear

/-- The argument of a command without its parentheses. -/
def argumentText : Reader String :=
  accept (.part "command argument") fun lexeme =>
    match lexeme.token with
    | .ruleName text | .tokenName text | .integer text => some text
    | _ => none

theorem argumentText_decides : Decides argumentText (.choice .name [.integer]) [] := by
  refine .accept _ (fun lexeme => ?_) (fun word derives => ?_) rfl
  · cases shape : lexeme.token <;>
      simp [Form.choice, Form.name, Form.integer, Token.terminal, Derives.either_iff]
  · simp only [Form.choice, Form.name, Form.integer, Derives.either_iff,
      Derives.terminal_iff] at derives
    rcases derives with rfl | rfl <;> exact ⟨_, rfl⟩

theorem commandArgument_decides : Decides commandArgument
    (.sequence [.mark .openParen, .choice .name [.integer], .mark .closeParen]) [] :=
  (mark_decides .openParen).andThen (by decide) fun _ =>
    (argumentText_decides).toRecognizes.andThen (by decide) fun _ =>
      (mark_decides .closeParen).toRecognizes.andThen (by decide) fun _ => .succeed _

theorem command_decides : Decides command (.notion .command) [.mark .openParen] := by
  have name : Decides ((identifier.map Located.value).orElse ((keyword .mode).giving "mode"))
      (.choice .name [.keyword .mode]) [] :=
    ((identifier_decides).map _).orElse (by decide) ((keyword_decides .mode).giving _)
  exact .notion (name.andThen (by decide) fun _ =>
    (commandArgument_decides).optional.andThen (by decide) fun _ => .succeed _)

theorem commands_decides : Decides commands
    (.sequence [.mark .arrow, .separated (.notion .command) (.mark .comma)])
    [.mark .comma, .mark .openParen] :=
  (mark_decides .arrow).andThen (by decide) fun _ =>
    ((command_decides).toRecognizes.separated (mark_decides .comma) (by decide)).committed.single

theorem alternativeLabel_decides :
    Decides alternativeLabel (.sequence [.mark .hash, .name]) [] :=
  (mark_decides .hash).andThen (by decide) fun _ => (identifier_decides).toRecognizes.committed.single

theorem alternative_sound (sound : Sound block (.notion .alternatives)) :
    Sound (alternative block) (.notion .alternative) :=
  .notion ((elementOptions_decides).sound.optional.andThen fun _ =>
    (element_sound sound).many.andThen fun _ => (alternativeLabel_decides).sound.optional.andThen fun _ =>
      (commands_decides).sound.optional.andThen fun _ => .succeed _)

theorem alternative_completes
    (inner : ∀ size < bound, Completes size block (.notion .alternatives) Form.alternativesMore) :
    Completes bound (alternative block) (.notion .alternative) Form.alternativeMore := by
  have commands : Completes bound commands.optional _ Form.alternativeMore :=
    ((commands_decides).optional.complete bound).widen (by decide)
  exact .notion (((elementOptions_decides).optional.complete bound).andThen (by decide) fun _ =>
    (elements_complete inner).andThen (by decide) fun _ =>
      ((alternativeLabel_decides).optional.complete bound).andThen (by decide) fun _ =>
        commands.andThen (by decide) fun _ => .succeed _)

theorem block_sound : Sound Parse.block (.notion .alternatives) :=
  Yields.recursive fun _ sound =>
    Sound.notion ((alternative_sound sound).separated (mark_decides .bar).sound)

theorem block_completes :
    Completes bound Parse.block (.notion .alternatives) Form.alternativesMore :=
  .recursive fun bound _ inner => .notion ((alternative_completes inner).separated
    (mark_decides .bar).misses ((mark_decides .bar).complete bound) (by decide))

theorem block_recognizes :
    Recognizes Parse.block (.notion .alternatives) Form.alternativesMore :=
  ⟨block_sound, fun _ => block_completes⟩

end Parse

end Railroad
