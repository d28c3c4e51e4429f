import Railroad.Grammar.Parser
import Railroad.Proofs.Reading.Recognizes

/-!
# Readers of the grammar language

Every reader of the grammar language recognizes the notion that it is named for.
-/

namespace Railroad.Parse

open Reader

theorem keyword_decides (word : Keyword) : Decides (keyword word) (.keyword word) [] :=
  .token rfl fun _ same => Token.terminal_eq_keyword.mp same

theorem mark_decides (sign : Mark) : Decides (mark sign) (.mark sign) [] :=
  .token rfl fun _ same => Token.terminal_eq_mark.mp same

theorem identifier_decides : Decides identifier .name [] := by
  refine .accept _ (fun lexeme => ?_) (fun _ derives => ⟨_, Derives.terminal_iff.mp derives⟩) rfl
  cases shape : lexeme.token <;> simp [Form.name, Token.terminal]

theorem stringLiteral_decides : Decides stringLiteral .literal [] := by
  refine .accept _ (fun lexeme => ?_) (fun _ derives => ⟨_, Derives.terminal_iff.mp derives⟩) rfl
  cases shape : lexeme.token <;> simp [Form.literal, Token.terminal]

theorem bracketed_decides : Decides bracketed .charSet [] := by
  refine .accept _ (fun lexeme => ?_) (fun _ derives => ⟨_, Derives.terminal_iff.mp derives⟩) rfl
  cases shape : lexeme.token <;> simp [Form.charSet, Token.terminal]

theorem actionText_decides : Decides actionText .action [] := by
  refine .accept _ (fun lexeme => ?_) (fun _ derives => ⟨_, Derives.terminal_iff.mp derives⟩) rfl
  cases shape : lexeme.token <;> simp [Form.action, Token.terminal]

theorem optionsBlock_decides : Decides optionsBlock .optionsBlock [] :=
  (keyword_decides .options).andThen (by decide) fun _ =>
    (actionText_decides).committed.andThen (by decide) fun _ => .succeed _

theorem optionValue_decides :
    Decides optionValue (.choice .name [.literal, .integer, .action]) [] := by
  refine .accept _ (fun lexeme => ?_) (fun word derives => ?_) rfl
  · cases shape : lexeme.token <;>
      simp [Form.choice, Form.name, Form.literal, Form.integer, Form.action, Token.terminal,
        Derives.either_iff]
  · simp only [Form.choice, Form.name, Form.literal, Form.integer, Form.action,
      Derives.either_iff, Derives.terminal_iff] at derives
    rcases derives with rfl | rfl | rfl | rfl <;> exact ⟨_, rfl⟩

/-- A name with or without a value behind an equals sign. -/
def assignment {α β : Type} (value : Reader α) (build : Located String → Option α → β) :
    Reader β :=
  identifier.andThen fun name =>
    ((mark .equals).andThen fun _ => value).optional.andThen fun found => .succeed (build name found)

theorem assignment_recognizes {α β : Type} {value : Reader α} {form : Form}
    (decides : Decides value form []) (build : Located String → Option α → β) :
    Recognizes (assignment value build)
      (.sequence [.name, .optional (.sequence [.mark .equals, form])]) [.mark .equals] := by
  have assigned : Decides ((mark .equals).andThen fun _ => value)
      (.sequence [.mark .equals, form]) [] :=
    (mark_decides .equals).andThen (Form.Joins.nil ..) fun _ => decides.toRecognizes.single
  exact (identifier_decides).toRecognizes.andThen (Form.Joins.nil ..) fun _ =>
    assigned.optional.andThen ⟨nofun, fun _ _ member => member⟩ fun _ => .succeed _

theorem elementOption_recognizes :
    Recognizes elementOption (.notion .elementOption) [.mark .equals] :=
  .notion (assignment_recognizes optionValue_decides _)

theorem elementOptions_decides : Decides elementOptions (.notion .elementOptions) [] :=
  .notion ((mark_decides .less).andThen (by decide) fun _ => .committed
    (((elementOption_recognizes).separated (mark_decides .comma) (by decide)).andThen (by decide) fun _ =>
      (mark_decides .greater).toRecognizes.andThen (by decide) fun _ => .succeed _))

theorem actionName_decides : Decides actionName (.notion .actionName) [] :=
  .notion (((identifier_decides).map _).orElse (by decide)
    (((keyword_decides .lexer).giving _).orElse (by decide) ((keyword_decides .parser).giving _)))

theorem namedAction_decides : Decides namedAction (.notion .namedAction) [] := by
  have scope : Decides (mark .doubleColon >>= fun _ => actionName)
      (.sequence [.mark .doubleColon, .notion .actionName]) [] :=
    (mark_decides .doubleColon).andThen (by decide) fun _ => (actionName_decides).toRecognizes.single
  refine .notion ((mark_decides .atSign).andThen (by decide) fun _ => .committed
    ((actionName_decides).toRecognizes.andThen (by decide) fun first =>
      scope.optional.andThen (by decide) fun second =>
        (actionText_decides).toRecognizes.andThen (by decide) fun body => ?_))
  cases second with
  | none => exact .succeed _
  | some name => exact .succeed _

theorem literalOrRange_decides : Decides literalOrRange .literalOrRange [.mark .doubleDot] := by
  have last : Decides (mark .doubleDot >>= fun _ => committed stringLiteral)
      (.sequence [.mark .doubleDot, .literal]) [] :=
    (mark_decides .doubleDot).andThen (by decide) fun _ =>
      (stringLiteral_decides).toRecognizes.committed.single
  refine (stringLiteral_decides).andThen (by decide) fun first =>
    last.optional.andThen (by decide) fun found => ?_
  cases found with
  | none => exact .succeed _
  | some text => exact .succeed _

theorem charSet_decides : Decides charSet .charSet [] := (bracketed_decides).map _

/-- An element of an excluded set, its options left aside. -/
theorem setCore_decides : Decides
    (literalOrRange.orElse (charSet.orElse (identifier.map fun name => Atom.reference name none)))
    (.choice .literalOrRange [.charSet, .name]) [.mark .doubleDot] :=
  (literalOrRange_decides).orElse (by decide)
    ((charSet_decides).orElse (by decide) ((identifier_decides).map _))

theorem setElement_decides :
    Decides setElement (.notion .setElement) [.mark .doubleDot, .mark .less] :=
  .notion ((setCore_decides).andThen (by decide) fun _ =>
    (elementOptions_decides).optional.andThen (by decide) fun _ => .succeed _)

theorem setBlock_decides : Decides setBlock .setBlock [] :=
  (mark_decides .openParen).andThen (by decide) fun _ =>
    ((setElement_decides).toRecognizes.separated (mark_decides .bar) (by decide)).andThen (by decide) fun _ =>
      (mark_decides .closeParen).toRecognizes.andThen (by decide) fun _ => .succeed _

theorem exclusion_decides :
    Decides exclusion .exclusion [.mark .doubleDot, .mark .less] :=
  (mark_decides .tilde).andThen (by decide) fun _ =>
    ((((setElement_decides).map _).orElse (by decide) ((setBlock_decides).map _)).toRecognizes.expecting
      _).committed.single

theorem wildcard_decides : Decides wildcard (.mark .dot) [] := (mark_decides .dot).giving _

end Railroad.Parse
