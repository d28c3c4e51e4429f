import Railroad.Proofs.Diagram.References
import Railroad.Proofs.Documentation.Announced

/-!
# Comments attached to declarations

A file consists of rules and of parts that are quiet, and a rule is quiet from its semicolon on.
So the comments that announce something are those directly in front of a declaration, unless one
stands directly behind the name of a rule or announces something inside a rule.
-/

namespace Railroad

namespace Documentation

open Reader

/-- The tokens without blanks and plain comments. -/
def noted (lexemes : List Lexeme) : List Lexeme :=
  lexemes.filter fun lexeme => !isPassedOver lexeme.token

/-- What stands before and behind the name at this place, without blanks and plain comments. -/
def around? (name : Located String) (lexemes : List Lexeme) : Option (List Token × List Token) :=
  (parted (fun lexeme => lexeme.span == name.span) lexemes).map fun sides =>
    (tokensOf (noted sides.1), tokensOf (noted sides.2))

/-- The documentation comment directly in front of the declaration of a name: only blanks, plain
comments and modifiers may stand between the two. -/
def commentBefore? (name : Located String) (lexemes : List Lexeme) : Option String :=
  (around? name lexemes).bind fun sides => lastComment sides.1

/-- The rest of the declaration of a name, up to its semicolon. -/
def restOfDeclaration (name : Located String) (lexemes : List Lexeme) : List Token :=
  ((around? name lexemes).map fun sides =>
    sides.2.takeWhile fun token => token != .mark .semicolon).getD []

/-- No comment in the rest of a declaration stands directly behind the name or announces
anything. -/
def Undisturbed (declaration : List Token) : Prop :=
  (∀ token ∈ declaration.head?, token.isTrivia = false) ∧ announced declaration = []

instance (declaration : List Token) : Decidable (Undisturbed declaration) :=
  inferInstanceAs (Decidable (_ ∧ _))

/-- The lexemes declare the rule of this name; from the semicolon on they are quiet. -/
inductive Declared : List Lexeme → Located String → Prop where
  | mk {modifiers inside closing : List Lexeme} {word next semicolon : Lexeme}
      {name : Located String} (modified : ∀ lexeme ∈ modifiers, isModifier lexeme.token = true)
      (place : word.span = name.span)
      (named : word.token = .ruleName name.value ∨ word.token = .tokenName name.value)
      (starts : startsRuleBody next.token = true)
      (free : ∀ lexeme ∈ next :: inside, lexeme.token ≠ .mark .semicolon)
      (ends : semicolon.token = .mark .semicolon) (quiet : Quiet (terminals closing)) :
      Declared (modifiers ++ word :: next :: (inside ++ semicolon :: closing)) name

/-- What may follow a name that is no declaration. -/
def Parting (word : List Terminal) : Prop :=
  Quiet word ∧ ∃ first rest, word = first :: rest ∧ terminalStartsRuleBody first = false

namespace Parting

variable {word : List Terminal}

theorem name_append (parting : Parting word) : Quiet (.name :: word) := by
  obtain ⟨quiet, first, rest, rfl, plain⟩ := parting
  exact .name_cons plain quiet

theorem actionName_append {front : List Terminal}
    (derives : Derives (.notion .actionName) front) (parting : Parting word) :
    Quiet (front ++ word) := by
  have choice := Derives.notion_iff.mp derives
  simp only [Notion.form, Form.choice, Form.name, Form.keyword, Derives.either_iff,
    Derives.terminal_iff] at choice
  rcases choice with rfl | rfl | rfl
  · exact parting.name_append
  · exact .cons rfl (by decide) parting.1
  · exact .cons rfl (by decide) parting.1

theorem delegate_append {front : List Terminal} (derives : Derives (.notion .delegate) front)
    (parting : Parting word) : Quiet (front ++ word) := by
  have form := Derives.notion_iff.mp derives
  simp only [Notion.form, Form.name, Form.mark, Derives.sequence_cons_iff, Derives.sequence_nil_iff,
    Derives.optional_iff, Derives.terminal_iff] at form
  obtain ⟨_, _, rfl, rfl, _, _, rfl, rfl | ⟨_, _, rfl, rfl, _, _, rfl, rfl, rfl⟩, rfl⟩ := form
  · exact parting.name_append
  · exact .name_cons rfl (.cons rfl (by decide) parting.name_append)

theorem delegates_append {front : List Terminal}
    (derives : Derives (.many (.sequence [.mark .comma, .notion .delegate])) front)
    (parting : Parting word) : Parting (front ++ word) := by
  generalize repeated : Form.many (.sequence [.mark .comma, .notion .delegate]) = form at derives
  induction derives with
  | done => exact parting
  | @again form front back head _ _ ih =>
      cases repeated
      obtain ⟨_, delegate, rfl, comma, named⟩ := Derives.sequence_pair_iff.mp head
      obtain rfl := Derives.terminal_iff.mp comma
      have later := delegate_append named (ih rfl)
      refine ⟨?_, .mark .comma, delegate ++ (back ++ word), by simp, rfl⟩
      have quiet : Quiet (.mark .comma :: (delegate ++ (back ++ word))) := .cons rfl (by decide) later
      simpa using quiet
  | _ => cases repeated

end Parting

/-- What ends a part of a file may follow a name. -/
theorem parting_of_single {only : Terminal} (plain : terminalIsModifier only = false)
    (different : only ≠ .name) (closes : terminalStartsRuleBody only = false) : Parting [only] :=
  ⟨.cons plain different trivial, only, [], rfl, closes⟩

theorem quiet_of_letters {form : Form} {word : List Terminal} (derives : Derives form word)
    (plain : ∀ terminal ∈ form.letters, terminalIsModifier terminal = false ∧ terminal ≠ .name) :
    Quiet word :=
  .of_letters fun terminal member => plain terminal (derives.mem_letters terminal member)

theorem namedAction_quiet {word : List Terminal} (derives : Derives (.notion .namedAction) word) :
    Quiet word := by
  have form := Derives.notion_iff.mp derives
  simp only [Notion.form, Derives.sequence_cons_iff, Derives.sequence_nil_iff, Derives.optional_iff,
    Form.mark, Form.action, Derives.terminal_iff] at form
  obtain ⟨_, _, rfl, rfl, first, _, rfl, named, scope, _, rfl, parts, _, _, rfl, rfl, rfl⟩ := form
  have closing : Parting [.action] := parting_of_single rfl (by decide) rfl
  rcases parts with rfl | ⟨_, _, rfl, rfl, second, _, rfl, scope, rfl⟩
  · have quiet := Parting.actionName_append named closing
    exact .cons rfl (by decide) (by simpa using quiet)
  · have behind : Parting (.mark .doubleColon :: (second ++ [.action])) := by
      have quiet := Parting.actionName_append scope closing
      exact ⟨.cons rfl (by decide) quiet, _, _, rfl, rfl⟩
    have quiet := Parting.actionName_append named behind
    exact .cons rfl (by decide) (by simpa using quiet)

theorem prequel_quiet {word : List Terminal} (derives : Derives (.notion .prequel) word) :
    Quiet word := by
  have form := Derives.notion_iff.mp derives
  simp only [Notion.form, Form.choice, Derives.either_iff] at form
  rcases form with options | imports | tokens | channels | action
  · exact quiet_of_letters options (by decide)
  · obtain ⟨_, _, rfl, word, tail⟩ := Derives.sequence_cons_iff.mp imports
    obtain ⟨_, _, rfl, list, sign⟩ := Derives.sequence_pair_iff.mp tail
    obtain ⟨_, _, rfl, first, more⟩ := Derives.sequence_pair_iff.mp list
    obtain rfl := Derives.terminal_iff.mp word
    obtain rfl := Derives.terminal_iff.mp sign
    have closing : Parting [.mark .semicolon] := parting_of_single rfl (by decide) rfl
    have quiet := Parting.delegate_append first (Parting.delegates_append more closing)
    rw [← List.append_assoc] at quiet
    exact .cons rfl (by decide) quiet
  · exact quiet_of_letters tokens (by decide)
  · exact quiet_of_letters channels (by decide)
  · exact namedAction_quiet action

theorem mode_quiet {word : List Terminal} (derives : Derives (.notion .mode) word) :
    Quiet word := by
  have form := Derives.notion_iff.mp derives
  simp only [Notion.form, Derives.sequence_cons_iff, Derives.sequence_nil_iff, Form.keyword,
    Form.name, Form.mark, Derives.terminal_iff] at form
  obtain ⟨_, _, rfl, rfl, _, _, rfl, rfl, _, _, rfl, rfl, rfl⟩ := form
  exact .cons rfl (by decide) (parting_of_single rfl (by decide) rfl).name_append

theorem header_quiet {word : List Terminal}
    (derives : Derives (.sequence [.optional (.choice (.keyword .lexer) [.keyword .parser]),
      .keyword .grammar, .name, .mark .semicolon]) word) : Quiet word := by
  obtain ⟨kind, _, rfl, kinds, tail⟩ := Derives.sequence_cons_iff.mp derives
  simp only [Derives.sequence_cons_iff, Derives.sequence_nil_iff, Form.keyword, Form.name,
    Form.mark, Derives.terminal_iff] at tail
  obtain ⟨_, _, rfl, rfl, _, _, rfl, rfl, _, _, rfl, rfl, rfl⟩ := tail
  exact (quiet_of_letters kinds (by decide)).append
    (.cons rfl (by decide) (parting_of_single rfl (by decide) rfl).name_append)

theorem many_quiet {form : Form} {word : List Terminal} (derives : Derives (.many form) word)
    (each : ∀ part, Derives form part → Quiet part) : Quiet word := by
  generalize repeated : Form.many form = whole at derives
  induction derives with
  | done => trivial
  | again head _ _ ih =>
      cases repeated
      exact (each _ head).append (ih rfl)
  | _ => cases repeated

/-- Lexemes of a form, and behind them what spells the value. -/
def Through {α : Type} (form : Form) (spelled : List Lexeme → α → Prop) (taken : List Lexeme)
    (value : α) : Prop :=
  ∃ inside behind, taken = inside ++ behind ∧ Derives form (terminals inside) ∧ spelled behind value

namespace Through

variable {α β : Type} {spelled : List Lexeme → β → Prop}

theorem skip {reader : Reader α} {next : α → Reader β} {first second : Form}
    (sound : Sound reader first) (later : ∀ value, Yields (next value) (Through second spelled)) :
    Yields (reader.andThen next) (Through (.both first second) spelled) := by
  refine (Yields.andThen sound later).mono fun taken value => ?_
  rintro ⟨_, front, _, rfl, head, inside, behind, rfl, tail, spells⟩
  exact ⟨front ++ inside, behind, by rw [List.append_assoc], by
    rw [terminals_append]
    exact .both head tail, spells⟩

theorem rest {reader : Reader β} (yields : Yields reader spelled) :
    Yields reader (Through .empty spelled) :=
  yields.mono fun taken _ spells => ⟨[], taken, rfl, .empty, spells⟩

end Through

open Parse

/-- What stands between the name and the semicolon of a rule. -/
def declarationForm : Form := .sequence [
  .optional .charSet, .optional (.sequence [.keyword .returns, .charSet]),
  .optional (.sequence [.keyword .throws, .separated .name (.mark .comma)]),
  .optional (.sequence [.keyword .locals, .charSet]),
  .many (.choice .optionsBlock [.notion .namedAction]), .mark .colon, .notion .alternatives]

theorem modifiers_modify {word : List Lexeme} (derives : Derives (.many .modifier) (terminals word)) :
    ∀ lexeme ∈ word, isModifier lexeme.token = true := by
  intro lexeme member
  have letter := derives.mem_letters _ (List.mem_map_of_mem member)
  have modifiers : ∀ terminal ∈ (Form.many Form.modifier).letters,
      terminalIsModifier terminal = true := by decide
  exact (isModifier_eq _).trans (modifiers _ letter)

/-- The end of the rule of this name. -/
def Closes (name : Located String) (taken : List Lexeme) (rule : Rule) : Prop :=
  rule.name = name ∧ ∃ semicolon closing, taken = semicolon :: closing ∧
    semicolon.token = .mark .semicolon ∧ Quiet (terminals closing)

theorem end_closes {name : Located String} {finish : List Handler → Rule}
    (named : ∀ handlers, (finish handlers).name = name) :
    Yields (((mark .semicolon).expecting "end of rule").andThen fun _ =>
      Reader.andThen (many handler) fun handlers => Reader.succeed (finish handlers))
      (Through .empty (Closes name)) := by
  refine Through.rest ((Yields.andThen ((Yields.token _).expecting _) fun _ =>
    Yields.andThen (handler_decides).sound.many fun handlers => Yields.succeed _).mono
      fun taken rule => ?_)
  rintro ⟨_, _, _, rfl, ⟨semicolon, rfl, sign⟩, handlers, closing, _, rfl, derives, rfl, rfl⟩
  refine ⟨named handlers, semicolon, closing ++ [], rfl, sign, ?_⟩
  rw [List.append_nil]
  exact quiet_of_letters derives (by decide)

theorem rule_declared : Yields rule fun taken rule => Declared taken rule.name := by
  have read : Yields rule _ :=
    Yields.andThen (modifier_decides).sound.many fun modifiers =>
      Yields.andThen ((identifier_named).expecting _) fun name =>
        Through.skip (bracketed_decides).sound.optional fun arguments =>
        Through.skip (bracketedClause_decides .returns).sound.optional fun returns =>
        Through.skip (throws_decides).sound.optional fun throws =>
        Through.skip (bracketedClause_decides .locals).sound.optional fun locals =>
        Through.skip (rulePart_decides).sound.many fun parts =>
        Through.skip (mark_decides .colon).sound fun _ =>
        Through.skip (block_recognizes).sound fun body => end_closes fun _ => rfl
  refine read.mono fun taken rule => ?_
  rintro ⟨_, modifiers, _, rfl, modify, name, _, _, rfl, ⟨word, rfl, place, named⟩, inside, _, rfl,
    derives, rfl, semicolon, closing, rfl, ends, quiet⟩
  have declaration : Derives declarationForm (terminals inside) := derives
  have free : ∀ lexeme ∈ inside, lexeme.token ≠ .mark .semicolon := by
    intro lexeme member same
    have letter := declaration.mem_letters _ (List.mem_map_of_mem member)
    rw [Token.terminal_eq_mark.mpr same] at letter
    exact absurd letter (by decide)
  cases inside with
  | nil => exact absurd rfl (declaration.ne_nil rfl)
  | cons next inside =>
      have starts : terminalStartsRuleBody next.token.terminal = true := by
        have plain : ∀ terminal ∈ declarationForm.starts, terminalStartsRuleBody terminal = true := by
          decide
        exact plain _ (declaration.head_mem_starts)
      exact .mk (modifiers_modify modify) place named ((startsRuleBody_eq _).trans starts) free ends
        quiet

/-- A mode is quiet, and a rule is declared. -/
def Part (taken : List Lexeme) : Section → Prop
  | .mode _ => Quiet (terminals taken)
  | .rule rule => Declared taken rule.name

theorem fileSection_parts : Yields fileSection fun taken found => taken ≠ [] ∧ Part taken found := by
  have mode : Yields (modeDeclaration.map Section.mode) Part := by
    refine (Yields.map (modeDeclaration_decides).sound _).mono fun taken found => ?_
    rintro ⟨_, derives, rfl⟩
    exact mode_quiet derives
  have declared : Yields (committed (rule.map Section.rule)) Part := by
    refine ((rule_declared).map _).committed.mono fun taken found => ?_
    rintro ⟨_, declares, rfl⟩
    exact declares
  exact (fileSection_takes).both (mode.orElse declared)

/-- A file is quiet up to its rules. -/
theorem grammar_parts {lexemes rest : List Lexeme} {found : Grammar}
    (read : grammar lexemes = .done found rest) : ∃ front back sections,
      lexemes = front ++ back ∧ Quiet (terminals front) ∧ Each Part back sections ∧
        found.rules = rulesInModes none sections := by
  obtain ⟨_, _, readHeader, read⟩ := andThen_done read
  obtain ⟨_, _, readPrequels, read⟩ := andThen_done read
  obtain ⟨sections, _, readSections, last⟩ := andThen_done read
  cases last
  obtain ⟨front, rfl, header⟩ := (header_recognizes).sound readHeader
  obtain ⟨middle, rfl, prequels⟩ := (prequel_decides).sound.many readPrequels
  have progress : ∀ taken found, taken ≠ [] ∧ Part taken found → taken ≠ [] := fun _ _ => And.left
  obtain ⟨back, rfl, each⟩ := (fileSection_parts).exhaust progress readSections
  obtain rfl := (fileSection_parts).exhaust_nil progress readSections
  refine ⟨front ++ middle, back, sections, by simp, ?_, each.mono fun _ _ => And.right, rfl⟩
  rw [terminals_append]
  exact (header_quiet header).append (many_quiet prequels fun _ derives => prequel_quiet derives)

/-! ## Comments along a file -/

/-- What the comments in front of the declarations announce. -/
def attached (rules : List Rule) (lexemes : List Lexeme) : List (String × String) :=
  rules.filterMap fun rule =>
    (commentBefore? rule.name lexemes).map fun body => (rule.name.value, body)

theorem parted_filter {meets keep : Lexeme → Bool} {lexemes : List Lexeme}
    (kept : ∀ lexeme ∈ lexemes, meets lexeme = true → keep lexeme = true) :
    parted meets (lexemes.filter keep) =
      (parted meets lexemes).map fun sides => (sides.1.filter keep, sides.2.filter keep) := by
  induction lexemes with
  | nil => rfl
  | cons lexeme rest ih =>
      obtain ⟨here, later⟩ := List.forall_mem_cons.mp kept
      by_cases met : meets lexeme = true
      · rw [List.filter_cons_of_pos (here met), parted, parted, if_pos met, if_pos met]
        rfl
      · rw [parted, if_neg met]
        by_cases stays : keep lexeme = true
        · rw [List.filter_cons_of_pos stays, parted, if_neg met, ih later, Option.map_map,
            Option.map_map]
          refine congrArg (fun change => Option.map change _) (funext fun sides => ?_)
          simp only [Function.comp, List.filter_cons_of_pos stays]
        · rw [List.filter_cons_of_neg stays, ih later, Option.map_map]
          refine congrArg (fun change => Option.map change _) (funext fun sides => ?_)
          simp only [Function.comp, List.filter_cons_of_neg stays]

theorem docComment_of_noted {token : Token} (clear : isPassedOver token = false)
    (skipped : token.isTrivia = true) : ∃ body, token = .docComment body := by
  cases token with
  | docComment body => exact ⟨body, rfl⟩
  | blockComment | lineComment | blanks | lineFeed => cases clear
  | _ => cases skipped

/-- The stream of noted lexemes along a declaration. -/
inductive Stretch (name : Located String) (back : List Lexeme) : List Lexeme → Prop where
  | mk {heading inside behind closing : List Lexeme} {word next semicolon : Lexeme}
      (heads : Heading (tokensOf heading)) (place : word.span = name.span)
      (named : word.token = .ruleName name.value ∨ word.token = .tokenName name.value)
      (starts : startsRuleBody next.token = true)
      (first : ∃ rest, significant inside = next :: rest)
      (free : ∀ lexeme ∈ inside, lexeme.token ≠ .mark .semicolon)
      (ends : semicolon.token = .mark .semicolon) (quiet : Quiet (terminals closing))
      (rest : significant behind = closing ++ back) :
      Stretch name back (heading ++ word :: (inside ++ semicolon :: behind))

theorem significant_eq_append {stream front back : List Lexeme}
    (split : significant stream = front ++ back) : ∃ before behind, stream = before ++ behind ∧
      significant before = front ∧ significant behind = back :=
  List.filter_eq_append_iff.mp split

theorem significant_eq_cons {stream back : List Lexeme} {first : Lexeme}
    (split : significant stream = first :: back) : ∃ comments behind,
      stream = comments ++ first :: behind ∧ (∀ comment ∈ comments, comment.token.isTrivia = true) ∧
        significant behind = back := by
  obtain ⟨comments, behind, same, skipped, -, later⟩ := List.filter_eq_cons_iff.mp split
  exact ⟨comments, behind, same, fun comment member => by simpa using skipped comment member, later⟩

theorem Declared.stretch {front back stream : List Lexeme} {name : Located String}
    (declared : Declared front name) (split : significant stream = front ++ back)
    (clear : ∀ lexeme ∈ stream, isPassedOver lexeme.token = false) : Stretch name back stream := by
  obtain @⟨modifiers, inside, closing, word, next, semicolon, _, modified, place, named, starts,
    free, ends, quiet⟩ := declared
  have parts : significant stream =
      modifiers ++ word :: ((next :: inside) ++ semicolon :: (closing ++ back)) := by
    rw [split]
    simp only [List.append_assoc, List.cons_append]
  obtain ⟨before, tail, rfl, modifies, parts⟩ := significant_eq_append parts
  obtain ⟨comments, tail, rfl, skipped, parts⟩ := significant_eq_cons parts
  obtain ⟨inner, tail, rfl, contains, parts⟩ := significant_eq_append parts
  obtain ⟨more, behind, rfl, skippedMore, rest⟩ := significant_eq_cons parts
  have comment : ∀ lexeme ∈ before ++ (comments ++ word :: (inner ++ (more ++ semicolon :: behind))),
      lexeme.token.isTrivia = true → ∃ body, lexeme.token = .docComment body :=
    fun lexeme member => docComment_of_noted (clear lexeme member)
  have none : significant more = [] :=
    List.filter_eq_nil_iff.mpr fun lexeme member => by simp [skippedMore lexeme member]
  have whole : before ++ (comments ++ word :: (inner ++ (more ++ semicolon :: behind))) =
      (before ++ comments) ++ word :: ((inner ++ more) ++ semicolon :: behind) := by
    simp only [List.append_assoc]
  rw [whole] at comment ⊢
  have heads : Heading (tokensOf (before ++ comments)) := by
    intro token member
    obtain ⟨lexeme, listed, rfl⟩ := List.mem_map.mp member
    by_cases trivia : lexeme.token.isTrivia = true
    · exact Or.inr (comment lexeme (List.mem_append_left _ listed) trivia)
    · rcases List.mem_append.mp listed with read | passed
      · have modifier : lexeme ∈ significant before := mem_significant.mpr ⟨read, trivia⟩
        exact Or.inl (modified lexeme (modifies ▸ modifier))
      · exact absurd (skipped lexeme passed) trivia
  have noSemicolon : ∀ lexeme ∈ inner ++ more, lexeme.token ≠ .mark .semicolon := by
    intro lexeme listed same
    have read : ¬lexeme.token.isTrivia = true := by rw [same]; exact Bool.false_ne_true
    rcases List.mem_append.mp listed with inside | passed
    · have contained : lexeme ∈ significant inner := mem_significant.mpr ⟨inside, read⟩
      exact free lexeme (contains ▸ contained) same
    · exact read (skippedMore lexeme passed)
  have first : significant (inner ++ more) = next :: inside := by
    rw [significant_append, contains, none, List.append_nil]
  exact .mk heads place named starts ⟨inside, first⟩ noSemicolon ends quiet rest

theorem announced_of_trivia {tokens : List Token} (skipped : ∀ token ∈ tokens, token.isTrivia = true) :
    announced tokens = [] := by
  induction tokens with
  | nil => rfl
  | cons token rest ih =>
      obtain ⟨here, later⟩ := List.forall_mem_cons.mp skipped
      have nothing : declaredRule? rest = none := by
        cases rest with
        | nil => rfl
        | cons second more => exact declaredRule?_trivia (later second (List.mem_cons_self ..)) _
      rw [announced_trivia here nothing, ih later]

/-- In a stream without blanks and plain comments, the sides of a name are those around it. -/
theorem around?_of_split {before behind : List Lexeme} {word : Lexeme} {name : Located String}
    (place : word.span = name.span)
    (clear : ∀ lexeme ∈ before ++ word :: behind, isPassedOver lexeme.token = false)
    (places : (before ++ word :: behind).Pairwise fun first second => first.span ≠ second.span) :
    around? name (before ++ word :: behind) = some (tokensOf before, tokensOf behind) := by
  have others : ∀ lexeme ∈ before, (lexeme.span == name.span) = false := by
    intro lexeme member
    rw [← place, beq_eq_false_iff_ne]
    exact (List.pairwise_append.mp places).2.2 lexeme member word (List.mem_cons_self ..)
  obtain ⟨clearBefore, clearBehind⟩ := List.forall_mem_append.mp clear
  have whole : ∀ lexemes : List Lexeme, (∀ lexeme ∈ lexemes, isPassedOver lexeme.token = false) →
      noted lexemes = lexemes := fun lexemes kept =>
    List.filter_eq_self.mpr fun lexeme member => by rw [kept lexeme member]; rfl
  rw [around?, parted_append others (beq_iff_eq.mpr place), Option.map_some, whole _ clearBefore,
    whole _ (List.forall_mem_cons.mp clearBehind).2]

/-- The last lexeme of what is quiet is read, and is no modifier. -/
theorem quiet_last {word : List Lexeme} (quiet : Quiet (terminals word))
    (read : ∀ lexeme ∈ word, lexeme.token.isTrivia = false) :
    ∀ lexeme ∈ word.getLast?, isModifier lexeme.token = false ∧ lexeme.token.isTrivia = false := by
  intro lexeme isLast
  refine ⟨?_, read lexeme (List.mem_of_getLast? isLast)⟩
  have last : lexeme.token.terminal ∈ (terminals word).getLast? := by
    rw [terminals, List.getLast?_map]
    exact Option.mem_map_of_mem _ isLast
  exact (isModifier_eq _).trans (quiet.last _ last)

/-- Without a comment directly behind the name, the first token there is the first one read. -/
theorem head_of_undisturbed {inside rest : List Lexeme} {next : Lexeme}
    (undisturbed : Undisturbed (tokensOf inside)) (first : significant inside = next :: rest) :
    ∃ inner, inside = next :: inner := by
  cases inside with
  | nil => cases first
  | cons lexeme inner =>
      have read : (!lexeme.token.isTrivia) = true := by
        rw [undisturbed.1 lexeme.token rfl]
        rfl
      have kept : significant (lexeme :: inner) = lexeme :: significant inner :=
        List.filter_cons_of_pos read
      rw [kept] at first
      exact ⟨inner, by rw [(List.cons.inj first).1]⟩

section Walk

variable {passed stream taken back : List Lexeme}

/-- Everything that is known where a part of a file begins. -/
structure Walk (passed stream : List Lexeme) : Prop where
  clear : ∀ lexeme ∈ passed ++ stream, isPassedOver lexeme.token = false
  places : (passed ++ stream).Pairwise fun first second => first.span ≠ second.span
  ends : ∀ lexeme ∈ passed.getLast?,
    isModifier lexeme.token = false ∧ lexeme.token.isTrivia = false

theorem Walk.on {front : List Lexeme} (walk : Walk passed (front ++ stream))
    (ends : ∀ lexeme ∈ (passed ++ front).getLast?,
      isModifier lexeme.token = false ∧ lexeme.token.isTrivia = false) :
    Walk (passed ++ front) stream :=
  ⟨by rw [List.append_assoc]; exact walk.clear, by rw [List.append_assoc]; exact walk.places, ends⟩

/-- A quiet part is passed over. -/
theorem Walk.quiet (walk : Walk passed stream) (split : significant stream = taken ++ back)
    (quiet : Quiet (terminals taken)) : ∃ front behind, stream = front ++ behind ∧
      significant behind = back ∧ announced (tokensOf stream) = announced (tokensOf behind) ∧
        Walk (passed ++ front) behind := by
  obtain ⟨front, behind, rfl, last, rest, same⟩ := announced_quiet split quiet
  have read : ∀ lexeme ∈ taken, lexeme.token.isTrivia = false := fun lexeme member => by
    have inside : lexeme ∈ significant (front ++ behind) := split ▸ List.mem_append_left _ member
    simpa using (mem_significant.mp inside).2
  refine ⟨front, behind, rfl, rest, same, walk.on fun lexeme isLast => ?_⟩
  rw [List.getLast?_append, last] at isLast
  cases found : taken.getLast? with
  | none => exact walk.ends lexeme (by rwa [found, Option.none_or] at isLast)
  | some other =>
      rw [found, Option.some_or] at isLast
      exact quiet_last quiet read lexeme (found.trans isLast)

section Names

variable {heading inside behind : List Lexeme} {word semicolon : Lexeme} {name : Located String}

theorem Walk.around (walk : Walk passed (heading ++ word :: behind)) (place : word.span = name.span) :
    around? name (passed ++ (heading ++ word :: behind)) =
      some (tokensOf (passed ++ heading), tokensOf behind) := by
  have whole : passed ++ (heading ++ word :: behind) = (passed ++ heading) ++ word :: behind := by
    rw [List.append_assoc]
  rw [whole]
  exact around?_of_split place (whole ▸ walk.clear) (whole ▸ walk.places)

/-- The comment in front of a name is the last one of its heading. -/
theorem Walk.comment (walk : Walk passed (heading ++ word :: behind))
    (place : word.span = name.span) (heads : Heading (tokensOf heading)) :
    commentBefore? name (passed ++ (heading ++ word :: behind)) = lastComment (tokensOf heading) := by
  have nothing : lastComment (tokensOf passed) = none := by
    refine lastComment_eq_none fun token isLast => ?_
    rw [tokensOf, List.getLast?_map] at isLast
    obtain ⟨lexeme, last, rfl⟩ := Option.map_eq_some_iff.mp isLast
    exact walk.ends lexeme last
  rw [commentBefore?, walk.around place, Option.bind_some, tokensOf_append, lastComment_append heads,
    nothing, Option.or_none]

/-- A declaration goes on to the first semicolon behind its name. -/
theorem Walk.restOfDeclaration_eq
    (walk : Walk passed (heading ++ word :: (inside ++ semicolon :: behind)))
    (place : word.span = name.span) (ends : semicolon.token = .mark .semicolon)
    (free : ∀ lexeme ∈ inside, lexeme.token ≠ .mark .semicolon) :
    restOfDeclaration name (passed ++ (heading ++ word :: (inside ++ semicolon :: behind))) =
      tokensOf inside := by
  have before : ∀ token ∈ tokensOf inside, (token != .mark .semicolon) = true := by
    intro token member
    obtain ⟨lexeme, listed, rfl⟩ := List.mem_map.mp member
    exact bne_iff_ne.mpr (free lexeme listed)
  have cut : tokensOf (inside ++ semicolon :: behind) =
      tokensOf inside ++ .mark .semicolon :: tokensOf behind := by
    rw [tokensOf_append, tokensOf_cons, ends]
  rw [restOfDeclaration, walk.around place, Option.map_some, Option.getD_some, cut,
    List.takeWhile_append_of_pos before, List.takeWhile_cons_of_neg (by decide), List.append_nil]

/-- A walk may stop behind any semicolon. -/
theorem Walk.past (walk : Walk passed (inside ++ semicolon :: behind))
    (ends : semicolon.token = .mark .semicolon) :
    Walk (passed ++ (inside ++ [semicolon])) behind := by
  rw [List.append_cons] at walk
  refine walk.on fun lexeme isLast => ?_
  have last : (passed ++ (inside ++ [semicolon])).getLast? = some semicolon := by
    rw [← List.append_assoc, List.getLast?_concat]
  obtain rfl := Option.some.inj (last.symm.trans isLast)
  rw [ends]
  exact ⟨rfl, rfl⟩

end Names

/-- A declaration is announced by the comment directly in front of it. -/
theorem Walk.declaration (walk : Walk passed stream) {name : Located String}
    (declared : Declared taken name) (split : significant stream = taken ++ back)
    (undisturbed : Undisturbed (restOfDeclaration name (passed ++ stream))) :
    ∃ front behind, stream = front ++ behind ∧ significant behind = back ∧
      announced (tokensOf stream) =
        ((commentBefore? name (passed ++ stream)).map fun body => (name.value, body)).toList ++
          announced (tokensOf behind) ∧ Walk (passed ++ front) behind := by
  have clear := (List.forall_mem_append.mp walk.clear).2
  obtain @⟨heading, inside, behind, closing, word, next, semicolon, heads, place, named, starts,
    ⟨others, first⟩, free, ends, quiet, rest⟩ := declared.stretch split clear
  rw [walk.restOfDeclaration_eq place ends free] at undisturbed
  rw [walk.comment place heads]
  obtain ⟨inner, rfl⟩ := head_of_undisturbed undisturbed first
  have tokens : announced (tokensOf (heading ++ word :: (next :: inner ++ semicolon :: behind))) =
      ((lastComment (tokensOf heading)).map fun body => (name.value, body)).toList ++
        announced (tokensOf behind) := by
    rw [tokensOf_append, tokensOf_cons, tokensOf_append, tokensOf_cons semicolon, ends,
      tokensOf_cons, List.cons_append, announced_declaration named starts heads,
      ← List.cons_append, announced_semicolon, ← tokensOf_cons, undisturbed.2, List.nil_append]
  have stretch : heading ++ word :: (next :: inner ++ semicolon :: behind) =
      (heading ++ word :: (next :: inner)) ++ semicolon :: behind := by
    rw [List.append_assoc]
    rfl
  rw [stretch] at walk
  obtain ⟨front, last, rfl, isRest, same, later⟩ := (walk.past ends).quiet rest quiet
  refine ⟨heading ++ word :: (next :: inner) ++ [semicolon] ++ front, last, by simp, isRest, ?_, ?_⟩
  · rw [tokens, same]
  · rwa [← List.append_assoc]

/-- The comments of a file announce what they are attached to. -/
theorem Walk.announced_eq {sections : List Section} (each : Each Part taken sections)
    (walk : Walk passed stream) (split : significant stream = taken) (mode : Option String)
    (undisturbed : ∀ rule ∈ rulesInModes mode sections,
      Undisturbed (restOfDeclaration rule.name (passed ++ stream))) :
    announced (tokensOf stream) = attached (rulesInModes mode sections) (passed ++ stream) := by
  induction each generalizing passed stream mode with
  | nil =>
      refine announced_of_trivia fun token member => ?_
      obtain ⟨lexeme, listed, rfl⟩ := List.mem_map.mp member
      by_contra read
      exact absurd (split ▸ mem_significant.mpr ⟨listed, read⟩) List.not_mem_nil
  | @cons front back part sections head _ ih =>
      cases part with
      | mode name =>
          obtain ⟨front, behind, rfl, rest, same, further⟩ := walk.quiet split head
          have later := ih further rest (some name) (by rwa [List.append_assoc])
          rw [same, later, List.append_assoc]
          rfl
      | rule rule =>
          obtain ⟨here, others⟩ := List.forall_mem_cons.mp undisturbed
          obtain ⟨front, behind, rfl, rest, same, further⟩ := walk.declaration head split here
          have later := ih further rest mode (by rwa [List.append_assoc])
          rw [same, later, List.append_assoc]
          cases found : commentBefore? rule.name (passed ++ (front ++ behind)) with
          | none => simp [attached, rulesInModes, found]
          | some body => simp [attached, rulesInModes, found]

end Walk

/-! ## Files -/

theorem significant_noted (lexemes : List Lexeme) :
    significant (noted lexemes) = significant lexemes := by
  rw [significant, noted, List.filter_filter]
  refine List.filter_congr fun lexeme _ => ?_
  cases lexeme.token <;> rfl

theorem noted_noted (lexemes : List Lexeme) : noted (noted lexemes) = noted lexemes := by
  rw [noted, noted, List.filter_filter]
  refine List.filter_congr fun lexeme _ => ?_
  rw [Bool.and_self]

/-- Every declared name is read somewhere. -/
theorem name_of_part {taken : List Lexeme} {sections : List Section} {rule : Rule}
    {mode : Option String} (each : Each Part taken sections)
    (listed : rule ∈ rulesInModes mode sections) : ∃ word ∈ taken, word.span = rule.name.span := by
  obtain ⟨declared, member, same⟩ := mem_rulesInModes listed
  obtain ⟨front, middle, back, rfl, part⟩ := each.of_mem member
  have heads : Declared middle declared.name := part
  rw [same]
  obtain ⟨-, place, -, -, -, -, -⟩ := heads
  exact ⟨_, by simp, place⟩

section Scanned

variable {source : String} {lexemes : List Lexeme} {found : Grammar}

/-- Blanks and plain comments do not matter for what stands around a name that is read. -/
theorem around?_noted {name : Located String} {word : Lexeme} (member : word ∈ significant lexemes)
    (place : word.span = name.span)
    (places : lexemes.Pairwise fun first second => first.span ≠ second.span) :
    around? name (noted lexemes) = around? name lexemes := by
  obtain ⟨inside, read⟩ := mem_significant.mp member
  have kept : ∀ lexeme ∈ lexemes, (lexeme.span == name.span) = true →
      (!isPassedOver lexeme.token) = true := by
    intro lexeme listed here
    have distinct : (lexemes.map Lexeme.span).Nodup := List.pairwise_map.mpr places
    obtain rfl := List.inj_on_of_nodup_map distinct listed inside ((beq_iff_eq.mp here).trans place.symm)
    cases shape : lexeme.token with
    | blockComment | lineComment | blanks | lineFeed => rw [shape] at read; exact absurd rfl read
    | _ => rfl
  rw [around?, noted, parted_filter kept, Option.map_map, around?]
  refine congrArg (fun change => Option.map change _) (funext fun sides => ?_)
  exact Prod.ext (congrArg tokensOf (noted_noted _)) (congrArg tokensOf (noted_noted _))

/-- The documentation of a file: every comment directly in front of a declaration, in order. -/
theorem documentation_eq (scanned : tokenize source = .ok lexemes)
    (parsed : Grammar.parse source = .ok found)
    (undisturbed : ∀ rule ∈ found.rules, Undisturbed (restOfDeclaration rule.name lexemes)) :
    documentation lexemes =
      (attached found.rules lexemes).foldl (fun found noted => found.put noted.1 (clean noted.2))
        .empty := by
  obtain ⟨same, rest, again, read⟩ := Grammar.parse_eq_ok.mp parsed
  obtain rfl : lexemes = same := Except.ok.inj (scanned.symm.trans again)
  obtain ⟨front, back, sections, split, quiet, each, rules⟩ := grammar_parts read
  have places := tokenize_distinct scanned
  have around : ∀ rule ∈ found.rules, around? rule.name (noted lexemes) = around? rule.name lexemes := by
    intro rule listed
    obtain ⟨word, member, place⟩ := name_of_part each (rules ▸ listed)
    exact around?_noted (split ▸ List.mem_append_right _ member) place places
  have walk : Walk [] (noted lexemes) :=
    ⟨fun lexeme member => by simpa using (List.mem_filter.mp member).2, places.filter _,
      fun _ none => absurd none (Option.not_mem_none _)⟩
  obtain ⟨before, behind, whole, isBack, passes, further⟩ :=
    walk.quiet ((significant_noted lexemes).trans split) quiet
  rw [List.nil_append] at further
  have announces := Walk.announced_eq each further isBack none fun rule listed => by
    rw [← rules] at listed
    rw [← whole, restOfDeclaration, around rule listed]
    exact undisturbed rule listed
  rw [← whole, ← rules, ← passes] at announces
  have attaches : attached found.rules (noted lexemes) = attached found.rules lexemes :=
    List.filterMap_congr fun rule listed => by rw [commentBefore?, commentBefore?, around rule listed]
  have tokens : (lexemes.map Lexeme.token).filter (fun token => !isPassedOver token) =
      tokensOf (noted lexemes) := by
    rw [tokensOf, noted, List.filter_map]
    rfl
  rw [documentation, tokens, collect_eq_foldl, announces, attaches]

end Scanned

theorem get?_attached (rules : List Rule) (lexemes : List Lexeme) (known : Catalog String String)
    (name : String) :
    ((attached rules lexemes).foldl (fun found noted => found.put noted.1 (clean noted.2)) known).get?
        name =
      (((declarationsOf name rules).filterMap fun rule =>
        commentBefore? rule.name lexemes).getLast?.map clean).or (known.get? name) := by
  induction rules generalizing known with
  | nil => rfl
  | cons rule rest ih =>
      cases comment : commentBefore? rule.name lexemes with
      | none =>
          have skipped : attached (rule :: rest) lexemes = attached rest lexemes := by
            rw [attached, List.filterMap_cons_none (by rw [comment]; rfl), attached]
          rw [skipped, ih]
          by_cases same : rule.name.value = name
          · simp only [declarationsOf_cons_of_eq same, List.filterMap_cons, comment]
          · rw [declarationsOf_cons_of_ne same]
      | some body =>
          have added : attached (rule :: rest) lexemes =
              (rule.name.value, body) :: attached rest lexemes := by
            rw [attached, List.filterMap_cons_some (by rw [comment]; rfl), attached]
          rw [added, List.foldl_cons, ih, Catalog.get?_put]
          by_cases same : rule.name.value = name
          · simp only [if_pos same.symm, declarationsOf_cons_of_eq same, List.filterMap_cons, comment,
              List.getLast?_cons]
            cases ((declarationsOf name rest).filterMap fun rule =>
              commentBefore? rule.name lexemes).getLast? <;> rfl
          · rw [if_neg (Ne.symm same), declarationsOf_cons_of_ne same]

/--
Documentation comments belong to the rule that they stand in front of: a rule is documented if one
of its declarations has a comment directly in front of it, and then by the comment in front of the
last such declaration.  Comments inside declarations do not matter, as long as none stands directly
behind a name or in front of what looks like a declaration.
-/
theorem documentation_attached {source : String} {lexemes : List Lexeme} {found : Grammar}
    (scanned : tokenize source = .ok lexemes) (parsed : Grammar.parse source = .ok found)
    (undisturbed : ∀ rule ∈ found.rules, Undisturbed (restOfDeclaration rule.name lexemes)) :
    (∀ name, name ∈ (documentation lexemes).keys ↔
      ∃ rule ∈ found.rules, rule.name.value = name ∧
        (commentBefore? rule.name lexemes).isSome = true) ∧
      ∀ name, (documentation lexemes).get? name =
        ((declarationsOf name found.rules).filterMap fun rule =>
          commentBefore? rule.name lexemes).getLast?.map clean := by
  have texts : ∀ name, (documentation lexemes).get? name =
      ((declarationsOf name found.rules).filterMap fun rule =>
        commentBefore? rule.name lexemes).getLast?.map clean := fun name => by
    rw [documentation_eq scanned parsed undisturbed, get?_attached]
    exact Option.or_none
  refine ⟨fun name => ?_, texts⟩
  rw [Catalog.mem_keys, texts name, Option.isSome_map, List.getLast?_isSome]
  simp only [ne_eq, List.filterMap_eq_nil_iff, not_forall, exists_prop, declarationsOf,
    List.mem_filter, decide_eq_true_eq, and_assoc, Option.isSome_iff_ne_none]

theorem documentation_attached_inner : ∃ lexemes found,
    tokenize "grammar g; /** one */ /* x */ fragment A : 'x'; /** two */ a : /** three */ b c; /** four */ a : A;" =
      .ok lexemes ∧
    Grammar.parse "grammar g; /** one */ /* x */ fragment A : 'x'; /** two */ a : /** three */ b c; /** four */ a : A;" =
      .ok found ∧
    (∀ rule ∈ found.rules, Undisturbed (restOfDeclaration rule.name lexemes)) ∧
    (∀ name, name ∈ (documentation lexemes).keys ↔
      ∃ rule ∈ found.rules, rule.name.value = name ∧
        (commentBefore? rule.name lexemes).isSome = true) ∧
      ∀ name, (documentation lexemes).get? name =
        ((declarationsOf name found.rules).filterMap fun rule =>
          commentBefore? rule.name lexemes).getLast?.map clean := by
  have plain : ((tokenize "grammar g; /** one */ /* x */ fragment A : 'x'; /** two */ a : /** three */ b c; /** four */ a : A;").toOption.bind fun lexemes =>
      (Grammar.parse "grammar g; /** one */ /* x */ fragment A : 'x'; /** two */ a : /** three */ b c; /** four */ a : A;").toOption.map fun found =>
        decide (∀ rule ∈ found.rules, Undisturbed (restOfDeclaration rule.name lexemes))) =
      some true := by
    decide +kernel
  cases scanned : tokenize "grammar g; /** one */ /* x */ fragment A : 'x'; /** two */ a : /** three */ b c; /** four */ a : A;" with
  | error rejection => rw [scanned] at plain; cases plain
  | ok lexemes =>
      cases parsed : Grammar.parse "grammar g; /** one */ /* x */ fragment A : 'x'; /** two */ a : /** three */ b c; /** four */ a : A;" with
      | error rejection => rw [scanned, parsed] at plain; cases plain
      | ok found =>
          rw [scanned, parsed] at plain
          have undisturbed := of_decide_eq_true (Option.some.inj plain)
          exact ⟨lexemes, found, rfl, rfl, undisturbed,
            documentation_attached scanned parsed undisturbed⟩

/-- A comment inside a rule body documents a rule that has no comment in front of it. -/
theorem documentation_misread : ∃ lexemes found,
    tokenize "grammar g; A : /** d */ B [a-z] ; B : 'x';" = .ok lexemes ∧
      Grammar.parse "grammar g; A : /** d */ B [a-z] ; B : 'x';" = .ok found ∧
        (documentation lexemes).keys = ["B"] ∧
          ∀ rule ∈ found.rules, commentBefore? rule.name lexemes = none := by
  have known : ((tokenize "grammar g; A : /** d */ B [a-z] ; B : 'x';").toOption.bind fun lexemes =>
      (Grammar.parse "grammar g; A : /** d */ B [a-z] ; B : 'x';").toOption.map fun found =>
        decide ((documentation lexemes).keys = ["B"] ∧
          ∀ rule ∈ found.rules, commentBefore? rule.name lexemes = none)) = some true := by
    decide +kernel
  cases scanned : tokenize "grammar g; A : /** d */ B [a-z] ; B : 'x';" with
  | error rejection => rw [scanned] at known; cases known
  | ok lexemes =>
      cases parsed : Grammar.parse "grammar g; A : /** d */ B [a-z] ; B : 'x';" with
      | error rejection => rw [scanned, parsed] at known; cases known
      | ok found =>
          rw [scanned, parsed] at known
          obtain ⟨keys, none⟩ := of_decide_eq_true (Option.some.inj known)
          exact ⟨lexemes, found, rfl, rfl, keys, none⟩

end Documentation

end Railroad
