import Railroad.Proofs.Grammar.Formed
import Railroad.Proofs.Reading.Reads

/-!
# Reading trees again

From the tokens of a formed tree the readers take the same tree, apart from options and places.
There is one exception: brackets behind a reference to a parser rule are taken as its arguments, so
a character set must not stand there.
-/

namespace Railroad

open Scan (wordToken)

mutual

def Content.withoutOptions : Content → Content
  | .group block => .group (blockWithoutOptions block)
  | content => content

def Element.withoutOptions : Element → Element
  | ⟨content, label, suffix⟩ => ⟨content.withoutOptions, label, suffix⟩

def elementsWithoutOptions : List Element → List Element
  | [] => []
  | element :: rest => element.withoutOptions :: elementsWithoutOptions rest

def Alternative.withoutOptions : Alternative → Alternative
  | ⟨elements, _, label, commands⟩ => ⟨elementsWithoutOptions elements, [], label, commands⟩

/-- The block with the options of every alternative left out, at every depth. -/
def blockWithoutOptions : List Alternative → List Alternative
  | [] => []
  | alternative :: rest => alternative.withoutOptions :: blockWithoutOptions rest

end

/-- A reference to a parser rule without arguments. -/
def Atom.isBare : Atom → Bool
  | .reference name none => RuleKind.ofName name.value == .parser
  | _ => false

def Element.isBareReference : Element → Bool
  | ⟨.atom inner, _, none⟩ => inner.isBare
  | _ => false

def Element.isBareSet : Element → Bool
  | ⟨.atom (.charSet _), none, _⟩ => true
  | _ => false

/-- No character set stands where the arguments of a reference would. -/
def Alternative.Separated (alternative : Alternative) : Prop :=
  alternative.elements.IsChain fun first second =>
    first.isBareReference = true → second.isBareSet = false

instance (alternative : Alternative) : Decidable alternative.Separated :=
  inferInstanceAs (Decidable (List.IsChain _ _))

/-- Terminals by which an atom may go on. -/
def Atom.more (atom : Atom) : List Terminal :=
  if atom.isBare then [.charSet, .mark .doubleDot, .mark .less] else [.mark .doubleDot, .mark .less]

theorem IsName.cases {word : String} (named : IsName word) :
    wordToken word = .tokenName word ∨ wordToken word = .ruleName word := by
  have text := Scan.wordToken_text word
  rw [IsName] at named
  cases same : wordToken word with
  | tokenName found => exact Or.inl (by rw [same] at text; exact congrArg _ text)
  | ruleName found => exact Or.inr (by rw [same] at text; exact congrArg _ text)
  | _ => rw [same] at named; cases named

namespace Parse

open Reader

variable {bound : Nat} {more : List Terminal}

theorem mark_reads (sign : Mark) : Reads bound (mark sign) [.mark sign] (fun _ => True) more :=
  .token _

theorem identifier_reads {word : String} (named : IsName word) :
    Reads bound identifier [wordToken word] (fun name => name.value = word) more := by
  refine .accept _ fun lexeme same => ⟨⟨word, lexeme.span⟩, ?_, rfl⟩
  rcases named.cases with upper | lower
  · simp only [same, upper]
  · simp only [same, lower]

theorem stringLiteral_reads (text : String) :
    Reads bound stringLiteral [.literal text] (· = text) more :=
  .accept _ fun lexeme same => ⟨text, by simp only [same], rfl⟩

theorem bracketed_reads (text : String) : Reads bound bracketed [.charSet text] (· = text) more :=
  .accept _ fun lexeme same => ⟨text, by simp only [same], rfl⟩

theorem actionText_reads (text : String) : Reads bound actionText [.action text] (· = text) more :=
  .accept _ fun lexeme same => ⟨text, by simp only [same], rfl⟩

/-- The reader takes the tokens of the atom as an atom that agrees with it. -/
def RereadsAtom (bound : Nat) (reader : Reader Atom) (atom : Atom) (more : List Terminal) : Prop :=
  Reads bound reader atom.tokens (fun found => atom.agrees found = true) more

theorem literal_rereads (text : String) :
    RereadsAtom bound literalOrRange (.literal text) [.mark .doubleDot] := by
  have range : Misses (mark .doubleDot >>= fun _ => committed stringLiteral) (.mark .doubleDot) :=
    (mark_decides .doubleDot).misses.before _
  refine (stringLiteral_reads text).andThen (.nil fun _ member => member) fun first same =>
    (Reads.absent range).andThen (.nil fun _ member => member) fun found none => ?_
  subst none same
  exact .succeed (by simp [Atom.agrees])

theorem range_rereads (first last : String) :
    RereadsAtom bound literalOrRange (.range first last) more := by
  have range : Reads bound (mark .doubleDot >>= fun _ => committed stringLiteral)
      [.mark .doubleDot, .literal last] (· = last) more :=
    (mark_reads .doubleDot).andThen (.unbarred _ _) fun _ _ => (stringLiteral_reads last).committed
  refine (stringLiteral_reads first).andThen (.unbarred _ _) fun opening same =>
    range.present.andThen (.nil fun _ member => member) fun found => ?_
  rintro ⟨closing, rfl, sameToo⟩
  subst same sameToo
  exact .succeed (by simp [Atom.agrees])

theorem charSet_rereads (text : String) : RereadsAtom bound charSet (.charSet text) more :=
  (bracketed_reads text).map fun found same => by simp [Atom.agrees, same]

theorem reference_rereads {name : Located String} {arguments : Option String}
    (formed : (Atom.reference name arguments).Formed) :
    RereadsAtom bound reference (.reference name arguments) (Atom.reference name arguments).more := by
  obtain ⟨named, unargued⟩ := formed
  have agrees (found : Located String) (same : found.value = name.value) :
      (Atom.reference name arguments).agrees (.reference found arguments) = true := by
    simp [Atom.agrees, same]
  refine (identifier_reads named).andThen (.unbarred _ _) fun found same => ?_
  rw [same]
  cases kind : RuleKind.ofName name.value with
  | lexer =>
      rw [unargued kind] at agrees ⊢
      exact .succeed (agrees found same)
  | parser =>
      cases arguments with
      | none =>
          have bare : (Atom.reference name none).isBare = true := by
            rw [Atom.isBare, kind]
            rfl
          have none : Reads bound bracketed.optional [] (· = none) (Atom.reference name none).more := by
            rw [Atom.more, if_pos bare]
            exact (Reads.absent (bracketed_decides).misses).widen (by decide)
          exact none.map fun other missing => missing ▸ agrees found same
      | some text =>
          refine (bracketed_reads text).present.map fun other => ?_
          rintro ⟨_, rfl, sameText⟩
          exact sameText ▸ agrees found same

theorem setElement_rereads {atom : Atom} (isItem : atom.IsItem) :
    RereadsAtom bound setElement atom [.mark .doubleDot, .mark .less] := by
  refine Reads.dropping ?_ (elementOptions_decides).misses (by decide)
  cases atom with
  | literal text => exact ((literal_rereads text).widen (by decide)).orElse_left _
  | range first last => exact (range_rereads first last).orElse_left _
  | charSet text =>
      exact .orElse_right ((literalOrRange_decides).misses.skips_cons .charSet rfl (by decide) _ _)
        ((charSet_rereads text).orElse_left _)
  | reference name arguments =>
      obtain ⟨named, rfl⟩ := isItem
      refine .orElse_right ((literalOrRange_decides).misses.skips_cons .name named (by decide) _ _)
        (.orElse_right ((charSet_decides).misses.skips_cons .name named (by decide) _ _) ?_)
      exact (identifier_reads named).map fun found same => by simp [Atom.agrees, same]
  | _ => exact isItem.elim

theorem setBlock_rereads {operands : List Atom} (some : operands ≠ [])
    (items : ∀ operand ∈ operands, operand.IsItem) :
    Reads bound setBlock (.mark .openParen ::
        (joinedBy (.mark .bar) (atomTokens operands) ++ [.mark .closeParen]))
      (fun found => atomsAgree operands found = true) more := by
  obtain ⟨first, rest, rfl⟩ := List.exists_cons_of_ne_nil some
  have list := Reads.separated (fun atoms found => atomsAgree atoms found = true) rfl
    (fun _ _ _ _ here later => by simp [atomsAgree, here, later]) (mark_reads .bar)
    (mark_decides .bar).misses (by decide) first rest fun operand listed =>
      (setElement_rereads (items operand listed) : RereadsAtom bound setElement operand _)
  refine (mark_reads .openParen).andThen (.unbarred _ _) fun _ _ => ?_
  rw [atomTokens_eq_map, List.map_cons, joinedBy, List.flatMap_map]
  refine list.andThen (.cons (.mark .closeParen) rfl (by decide) _ _) fun found agree => ?_
  exact (mark_reads .closeParen).map fun _ _ => agree

theorem excluding_rereads {operand : Atom} (isItem : operand.IsItem) :
    RereadsAtom bound exclusion (.excluding operand) [.mark .doubleDot, .mark .less] := by
  have item : Reads bound (setElement.map Atom.excluding) operand.tokens
      (fun found => (Atom.excluding operand).agrees found = true) [.mark .doubleDot, .mark .less] :=
    Reads.map (setElement_rereads isItem) fun found agree => by simpa only [Atom.agrees] using agree
  exact (mark_reads .tilde).andThen (.unbarred _ _) fun _ _ =>
    ((item.orElse_left _).expecting _).committed

theorem excludingAny_rereads {operands : List Atom} (some : operands ≠ [])
    (items : ∀ operand ∈ operands, operand.IsItem) :
    RereadsAtom bound exclusion (.excludingAny operands) more := by
  have list : Reads bound (setBlock.map Atom.excludingAny) (.mark .openParen ::
      (joinedBy (.mark .bar) (atomTokens operands) ++ [.mark .closeParen]))
      (fun found => (Atom.excludingAny operands).agrees found = true) more :=
    (setBlock_rereads some items).map fun found agree => by simpa only [Atom.agrees] using agree
  have skips : Skips (setElement.map Atom.excluding) (.mark .openParen ::
      (joinedBy (.mark .bar) (atomTokens operands) ++ [.mark .closeParen])) more :=
    ((setElement_decides).misses.map _).skips_cons (.mark .openParen) rfl (by decide) _ _
  exact (mark_reads .tilde).andThen (.unbarred _ _) fun _ _ =>
    ((Reads.orElse_right skips list).expecting _).committed

theorem Atom.Formed.begins {atom : Atom} (formed : atom.Formed) :
    Begins (.notion .atom) atom.tokens := by
  cases atom with
  | literal text => exact .cons .literal rfl (by decide) _
  | range first last => exact .cons .literal rfl (by decide) _
  | charSet text => exact .cons .charSet rfl (by decide) _
  | reference name arguments => exact .cons .name formed.1 (by decide) _
  | excluding operand => exact .cons (.mark .tilde) rfl (by decide) _
  | excludingAny operands => exact .cons (.mark .tilde) rfl (by decide) _
  | wildcard => exact .cons (.mark .dot) rfl (by decide) _

theorem bareAtom_of_exclusion {rest : List Token} {expected : Atom → Prop}
    (reads : Reads bound exclusion (.mark .tilde :: rest) expected more) :
    Reads bound bareAtom (.mark .tilde :: rest) expected more := by
  refine .orElse_right ((literalOrRange_decides).misses.skips_cons (.mark .tilde) rfl (by decide) _ _)
    (.orElse_right ((charSet_decides).misses.skips_cons (.mark .tilde) rfl (by decide) _ _)
      (.orElse_right ((reference_misses).skips_cons (.mark .tilde) rfl (by decide) _ _) ?_))
  exact reads.orElse_left _

theorem bareAtom_rereads {atom : Atom} (formed : atom.Formed) :
    RereadsAtom bound bareAtom atom atom.more := by
  cases atom with
  | literal text =>
      have reads : RereadsAtom bound literalOrRange (.literal text) [.mark .doubleDot, .mark .less] :=
        (literal_rereads text).widen (by decide)
      exact reads.orElse_left _
  | range first last => exact (range_rereads first last).orElse_left _
  | charSet text =>
      exact .orElse_right ((literalOrRange_decides).misses.skips_cons .charSet rfl (by decide) _ _)
        ((charSet_rereads text).orElse_left _)
  | reference name arguments =>
      refine .orElse_right ((literalOrRange_decides).misses.skips_cons .name formed.1 (by decide) _ _)
        (.orElse_right ((charSet_decides).misses.skips_cons .name formed.1 (by decide) _ _) ?_)
      exact (reference_rereads formed).orElse_left _
  | excluding operand => exact bareAtom_of_exclusion (excluding_rereads formed)
  | excludingAny operands =>
      exact bareAtom_of_exclusion (excludingAny_rereads formed.1 formed.2)
  | wildcard =>
      refine .orElse_right ((literalOrRange_decides).misses.skips_cons (.mark .dot) rfl (by decide) _ _)
        (.orElse_right ((charSet_decides).misses.skips_cons (.mark .dot) rfl (by decide) _ _)
          (.orElse_right ((reference_misses).skips_cons (.mark .dot) rfl (by decide) _ _)
            (.orElse_right ((exclusion_decides).misses.skips_cons (.mark .dot) rfl (by decide) _ _)
              ?_)))
      exact (mark_reads .dot).map fun _ _ => rfl

theorem atom_rereads {atom : Atom} (formed : atom.Formed) :
    RereadsAtom bound Parse.atom atom atom.more := by
  refine Reads.dropping (bareAtom_rereads formed) (elementOptions_decides).misses ?_
  rw [Atom.more]
  split <;> decide

theorem repetition_rereads (repeats : Repeat) :
    Reads bound repetition (Suffix.mk repeats true).tokens (· = repeats) more := by
  have question (sign : Mark) (other : .mark sign ∉ [Terminal.mark .question]) :
      Skips ((mark .question).giving Repeat.optional) [.mark sign] more :=
    ((mark_decides .question).misses.map _).skips_cons (.mark sign) rfl other _ _
  cases repeats with
  | optional => exact ((mark_reads .question).giving _).orElse_left _
  | zeroOrMore =>
      exact .orElse_right (question .star (by decide))
        (((mark_reads .star).giving _).orElse_left _)
  | oneOrMore =>
      have star : Skips ((mark .star).giving Repeat.zeroOrMore) [.mark .plus] more :=
        ((mark_decides .star).misses.map _).skips_cons (.mark .plus) rfl (by decide) _ _
      exact .orElse_right (question .plus (by decide))
        (.orElse_right star ((mark_reads .plus).giving _))

theorem suffix_rereads (suffix : Suffix) :
    Reads bound Parse.suffix suffix.tokens (· = suffix) [.mark .question] := by
  rcases suffix with ⟨repeats, greedy⟩
  cases greedy with
  | true =>
      have lazy : Reads bound (mark .question).optional [] (· = none) [.mark .question] :=
        .absent (mark_decides .question).misses
      have whole : Reads bound Parse.suffix ((Suffix.mk repeats true).tokens ++ [])
          (· = ⟨repeats, true⟩) [.mark .question] :=
        (repetition_rereads repeats).andThen (.nil fun _ member => member) fun found same =>
          lazy.map fun missing none => by rw [same, none]; rfl
      rwa [List.append_nil] at whole
  | false =>
      have lazy : Reads bound (mark .question).optional [.mark .question] _ [.mark .question] :=
        (mark_reads .question).present
      have whole : Reads bound Parse.suffix ((Suffix.mk repeats true).tokens ++ [.mark .question])
          (· = ⟨repeats, false⟩) [.mark .question] :=
        (repetition_rereads repeats).andThen (.unbarred _ _) fun found same =>
          lazy.map fun present ⟨_, there, _⟩ => by rw [same, there]; rfl
      exact whole

/-- Terminals by which a missing suffix could be taken for one. -/
def suffixMore : List Terminal := [.mark .question, .mark .star, .mark .plus]

def suffixTokens (suffix : Option Suffix) : List Token := (suffix.map Suffix.tokens).getD []

theorem optionalSuffix_rereads (suffix : Option Suffix) :
    Reads bound Parse.suffix.optional (suffixTokens suffix) (· = suffix) suffixMore := by
  cases suffix with
  | none => exact (Reads.absent (suffix_decides).misses).widen (by decide)
  | some suffix =>
      refine ((suffix_rereads suffix).present.widen (by decide)).mono fun found => ?_
      rintro ⟨value, rfl, rfl⟩
      rfl

theorem begins_suffix (suffix : Option Suffix) : Begins (.optional .suffix) (suffixTokens suffix) := by
  rcases suffix with _ | ⟨repeats, greedy⟩
  · exact ⟨fun _ none => absurd none (Option.not_mem_none _), fun firm => Bool.noConfusion firm⟩
  · cases repeats with
    | optional => cases greedy <;> exact .cons (.mark .question) rfl (by decide) _
    | zeroOrMore => cases greedy <;> exact .cons (.mark .star) rfl (by decide) _
    | oneOrMore => cases greedy <;> exact .cons (.mark .plus) rfl (by decide) _

theorem labelOperator_rereads (additive : Bool) :
    Reads bound labelOperator [.mark (if additive then .plusEquals else .equals)] (· = additive)
      more := by
  cases additive with
  | false => exact ((mark_reads .equals).giving _).orElse_left _
  | true =>
      exact .orElse_right
        (((mark_decides .equals).misses.map _).skips_cons (.mark .plusEquals) rfl (by decide) _ _)
        ((mark_reads .plusEquals).giving _)

theorem argumentText_rereads {text : String}
    (known : (argumentToken text).terminal ∈ [Terminal.name, .integer]) :
    Reads bound argumentText [argumentToken text] (· = text) more := by
  have spelled := argumentToken_text text
  refine .accept _ fun lexeme same => ⟨text, ?_, rfl⟩
  cases shape : argumentToken text with
  | tokenName found | ruleName found | integer found =>
      rw [shape] at spelled same
      simp only [same]
      exact congrArg some spelled
  | _ =>
      rw [shape] at known
      simp [Token.terminal] at known

theorem command_rereads {command : Command} (formed : command.Formed) :
    Reads bound Parse.command command.tokens (· = command) [.mark .openParen] := by
  rcases command with ⟨name, argument⟩
  obtain ⟨named, known⟩ := formed
  have nameReads : Reads bound ((identifier.map Located.value).orElse ((keyword .mode).giving "mode"))
      [wordToken name] (· = name) [] := by
    rcases named with named | rfl
    · exact ((identifier_reads named).map fun _ same => same).orElse_left _
    · have keyword : Reads bound (keyword .mode) [wordToken "mode"] (fun _ => True) [] := .token _
      exact .orElse_right (((identifier_decides).misses.map _).skips_cons (.keyword .mode) rfl
        (by decide) _ _) (keyword.giving _)
  cases argument with
  | none =>
      have missing : Reads bound commandArgument.optional [] (· = none) [.mark .openParen] :=
        .absent (commandArgument_decides).misses
      exact nameReads.andThen (.unbarred _ _) fun found same =>
        missing.map fun other none => by rw [same, none]
  | some text =>
      have inner : Reads bound commandArgument
          [.mark .openParen, argumentToken text, .mark .closeParen] (· = text) [.mark .openParen] :=
        (mark_reads .openParen).andThen (.unbarred _ _) fun _ _ =>
          (argumentText_rereads (known text rfl)).andThen (.unbarred _ _) fun found same =>
            (mark_reads .closeParen).map fun _ _ => same
      refine nameReads.andThen (.unbarred _ _) fun found same => inner.present.map fun other => ?_
      rintro ⟨argument, rfl, sameText⟩
      rw [same, sameText]

theorem commands_reread {commands : List Command} (some : commands ≠ [])
    (formed : ∀ command ∈ commands, command.Formed) :
    Reads bound Parse.commands
      (.mark .arrow :: joinedBy (.mark .comma) (commands.map Command.tokens)) (· = commands)
      [.mark .comma, .mark .openParen] := by
  obtain ⟨first, rest, rfl⟩ := List.exists_cons_of_ne_nil some
  have list := Reads.separated (fun items found => found = items) rfl
    (fun _ _ _ _ here later => by rw [here, later]) (mark_reads .comma)
    (mark_decides .comma).misses (by decide) first rest fun command listed =>
      (command_rereads (formed command listed) : Reads bound Parse.command command.tokens _ _)
  rw [List.map_cons, joinedBy, List.flatMap_map]
  exact (mark_reads .arrow).andThen (.unbarred _ _) fun _ _ => list.committed

/-- The tokens of a label behind the elements of an alternative. -/
def labelTokens (label : Option String) : List Token :=
  (label.map fun name => [.mark .hash, wordToken name]).getD []

def commandsTokens (commands : List Command) : List Token :=
  if commands.isEmpty then []
  else .mark .arrow :: joinedBy (.mark .comma) (commands.map Command.tokens)

theorem begins_label (label : Option String) : Begins (.optional (.mark .hash)) (labelTokens label) := by
  cases label with
  | none => exact ⟨fun _ none => absurd none (Option.not_mem_none _), fun firm => Bool.noConfusion firm⟩
  | some name => exact .cons (.mark .hash) rfl (by decide) _

theorem begins_commands (commands : List Command) :
    Begins (.optional (.mark .arrow)) (commandsTokens commands) := by
  cases commands with
  | nil => exact ⟨fun _ none => absurd none (Option.not_mem_none _), fun firm => Bool.noConfusion firm⟩
  | cons first rest => exact .cons (.mark .arrow) rfl (by decide) _

theorem optionalLabel_rereads {label : Option String} (named : ∀ name ∈ label, IsName name) :
    Reads bound alternativeLabel.optional (labelTokens label)
      (fun found => found.map Located.value = label) [.mark .hash] := by
  cases label with
  | none =>
      have missing : Reads bound alternativeLabel.optional [] (· = none) [.mark .hash] :=
        .absent (alternativeLabel_decides).misses
      exact missing.mono fun found none => by rw [none]; rfl
  | some name =>
      have inner : Reads bound alternativeLabel [.mark .hash, wordToken name]
          (fun found => found.value = name) [.mark .hash] :=
        (mark_reads .hash).andThen (.unbarred _ _) fun _ _ =>
          (identifier_reads (named name rfl)).committed
      refine inner.present.mono fun found => ?_
      rintro ⟨place, rfl, same⟩
      exact congrArg some same

theorem optionalCommands_reread {commands : List Command}
    (formed : ∀ command ∈ commands, command.Formed) :
    Reads bound Parse.commands.optional (commandsTokens commands)
      (fun found => found.getD [] = commands) [.mark .arrow, .mark .comma, .mark .openParen] := by
  by_cases none : commands = []
  · subst none
    have missing : Reads bound Parse.commands.optional [] (· = none) [.mark .arrow] :=
      .absent (commands_decides).misses
    exact (missing.widen (by decide)).mono fun found none => by rw [none]; rfl
  · have tokens : commandsTokens commands =
        .mark .arrow :: joinedBy (.mark .comma) (commands.map Command.tokens) :=
      if_neg (by simpa using none)
    rw [tokens]
    refine ((commands_reread none formed).present.widen (by decide)).mono fun found => ?_
    rintro ⟨list, rfl, same⟩
    exact same

end Parse

end Railroad
