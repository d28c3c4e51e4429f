import Railroad.Proofs.Printing.Declared
import Railroad.Proofs.Printing.Rebuild
import Railroad.Proofs.Printing.Standing

/-!
# Printing and reading again

The written form of a grammar that has been read is scanned into the tokens of its header and of
its rules, and these are read as a grammar with the same rules, apart from options and places.
-/

namespace Railroad

open Scan (wordToken)

/-- The text of an embedded action. -/
def Content.actionText? : Content → Option String
  | .action code _ => some code
  | _ => none

/-- No action in the alternative has a quote in it. -/
def Alternative.Unquoted (alternative : Alternative) : Prop :=
  ∀ element ∈ alternative.elements, ∀ code ∈ element.content.actionText?, Railroad.Unquoted code

instance (text : String) : Decidable (Unquoted text) := inferInstanceAs (Decidable (_ ∧ _))

instance (alternative : Alternative) : Decidable alternative.Unquoted :=
  inferInstanceAs (Decidable (∀ element ∈ alternative.elements, _))

theorem wordToken_ne_action (word text : String) : wordToken word ≠ .action text := by
  unfold wordToken
  split
  · exact Token.noConfusion
  · split <;> exact Token.noConfusion

theorem argumentToken_ne_action (argument text : String) : argumentToken argument ≠ .action text := by
  unfold argumentToken
  split
  · exact Token.noConfusion
  · exact wordToken_ne_action argument text

theorem of_mem_joinedBy {token separator : Token} {lists : List (List Token)}
    (member : token ∈ joinedBy separator lists) (apart : token ≠ separator) :
    ∃ list ∈ lists, token ∈ list := by
  cases lists with
  | nil => exact absurd member List.not_mem_nil
  | cons first rest =>
      rcases List.mem_append.mp member with here | later
      · exact ⟨first, List.mem_cons_self .., here⟩
      · obtain ⟨list, listed, inside⟩ := List.mem_flatMap.mp later
        rcases List.mem_cons.mp inside with same | inside
        · exact absurd same apart
        · exact ⟨list, List.mem_cons_of_mem _ listed, inside⟩

mutual

theorem Atom.action_not_mem (text : String) : ∀ atom : Atom, .action text ∉ atom.tokens
  | .literal _ | .charSet _ | .range _ _ | .wildcard => by simp [Atom.tokens]
  | .reference name arguments => by
      have apart := (wordToken_ne_action name.value text).symm
      cases arguments <;> simp [Atom.tokens, apart]
  | .excluding operand => by
      simpa [Atom.tokens] using Atom.action_not_mem text operand
  | .excludingAny operands => by
      simp only [Atom.tokens, List.mem_cons, List.mem_append, List.not_mem_nil, or_false,
        reduceCtorEq, false_or]
      intro member
      obtain ⟨list, listed, inside⟩ := of_mem_joinedBy member Token.noConfusion
      exact atoms_action_not_mem text operands list listed inside

theorem atoms_action_not_mem (text : String) : ∀ atoms : List Atom,
    ∀ list ∈ atomTokens atoms, .action text ∉ list
  | [] => List.forall_mem_nil _
  | first :: rest => List.forall_mem_cons.mpr
      ⟨Atom.action_not_mem text first, atoms_action_not_mem text rest⟩

end

theorem Suffix.action_not_mem (text : String) (suffix : Suffix) : .action text ∉ suffix.tokens := by
  rcases suffix with ⟨repeats, greedy⟩
  cases greedy <;> simp [Suffix.tokens]

theorem Command.action_not_mem (text : String) (command : Command) :
    .action text ∉ command.tokens := by
  have name := (wordToken_ne_action command.name text).symm
  rcases command with ⟨_, argument⟩
  cases argument with
  | none => simpa [Command.tokens] using name
  | some argument =>
      have inner := (argumentToken_ne_action argument text).symm
      simpa [Command.tokens, inner] using name

mutual

/-- Every action among the tokens is one of the tree. -/
theorem Content.unquoted (text : String) : ∀ content : Content,
    (∀ nested ∈ content.nested, nested.Unquoted) →
      (∀ code ∈ content.actionText?, Unquoted code) →
        .action text ∈ content.tokens → Unquoted text
  | .atom inner, _, _, member => absurd member (Atom.action_not_mem text inner)
  | .group block, nested, _, member => by
      simp only [Content.tokens, List.mem_cons, List.mem_append, List.not_mem_nil, or_false,
        reduceCtorEq, false_or] at member
      obtain ⟨list, listed, inside⟩ := of_mem_joinedBy member Token.noConfusion
      exact alternatives_unquoted text block nested list listed inside
  | .action code predicate, _, own, member => by
      have same : text = code := by
        cases predicate <;> simpa [Content.tokens] using member
      exact same ▸ own code rfl

theorem elements_unquoted (text : String) : ∀ elements : List Element,
    (∀ nested ∈ elementsNested elements, nested.Unquoted) →
      (∀ element ∈ elements, ∀ code ∈ element.content.actionText?, Unquoted code) →
        .action text ∈ elementTokens elements → Unquoted text
  | [], _, _, member => absurd member List.not_mem_nil
  | ⟨content, label, suffix⟩ :: rest, nested, own, member => by
      obtain ⟨here, later⟩ := List.forall_mem_append.mp nested
      obtain ⟨ownHere, ownLater⟩ := List.forall_mem_cons.mp own
      rcases List.mem_append.mp member with first | others
      · rw [Element.tokens] at first
        rcases List.mem_append.mp first with first | inSuffix
        · rcases List.mem_append.mp first with inLabel | inContent
          · cases label with
            | none => exact absurd inLabel List.not_mem_nil
            | some label =>
                have apart := (wordToken_ne_action label.name text).symm
                simp [ElementLabel.tokens, apart] at inLabel
          · exact Content.unquoted text content here ownHere inContent
        · cases suffix with
          | none => exact absurd inSuffix List.not_mem_nil
          | some suffix => exact absurd inSuffix (suffix.action_not_mem text)
      · exact elements_unquoted text rest later ownLater others

theorem alternatives_unquoted (text : String) : ∀ block : List Alternative,
    (∀ nested ∈ nestedAlternatives block, nested.Unquoted) →
      ∀ list ∈ alternativeTokens block, .action text ∈ list → Unquoted text
  | [], _ => List.forall_mem_nil _
  | ⟨elements, options, label, commands⟩ :: rest, nested => by
      obtain ⟨here, later⟩ := List.forall_mem_append.mp nested
      obtain ⟨own, inner⟩ := List.forall_mem_cons.mp here
      refine List.forall_mem_cons.mpr ⟨fun member => ?_, alternatives_unquoted text rest later⟩
      rw [Alternative.tokens] at member
      rcases List.mem_append.mp member with member | inCommands
      · rcases List.mem_append.mp member with inElements | inLabel
        · exact elements_unquoted text elements inner own inElements
        · cases label with
          | none => exact absurd inLabel List.not_mem_nil
          | some name =>
              have apart := (wordToken_ne_action name text).symm
              simp [apart] at inLabel
      · split at inCommands
        · exact absurd inCommands List.not_mem_nil
        · rcases List.mem_cons.mp inCommands with same | inside
          · cases same
          · obtain ⟨list, listed, inList⟩ := of_mem_joinedBy inside Token.noConfusion
            obtain ⟨command, -, rfl⟩ := List.mem_map.mp listed
            exact absurd inList (command.action_not_mem text)

end

/-- Tokens of a body that has been read are stable if no action in it has a quote. -/
theorem block_stable {block : Block} (plain : ∀ token ∈ blockTokens block, token.isTrivia = false)
    (unquoted : ∀ nested ∈ nestedAlternatives block, nested.Unquoted) :
    ∀ token ∈ blockTokens block, token.Stable := by
  intro token member
  have kept := plain token member
  cases token with
  | action text =>
      obtain ⟨list, listed, inside⟩ := of_mem_joinedBy member Token.noConfusion
      exact alternatives_unquoted text block unquoted list listed inside
  | docComment | blockComment | lineComment | blanks | lineFeed => cases kept
  | _ => trivial

def GrammarKind.tokens : GrammarKind → List Token
  | combined => [.keyword .grammar]
  | lexer => [.keyword .lexer, .keyword .grammar]
  | parser => [.keyword .parser, .keyword .grammar]

def fragmentTokens (fragment : Bool) : List Token := if fragment then [.keyword .fragment] else []

/-- The tokens of the written form of a rule. -/
def Rule.tokens (rule : Rule) : List Token :=
  fragmentTokens rule.fragment ++ ([wordToken rule.name.value] ++
    ([.mark .colon] ++ (blockTokens rule.body ++ [.mark .semicolon])))

/-- The tokens of the written form of a grammar. -/
def Grammar.printedTokens (grammar : Grammar) : List Token :=
  grammar.kind.tokens ++ ([wordToken grammar.name.value] ++ [.mark .semicolon]) ++
    grammar.rules.flatMap Rule.tokens

theorem Rule.laid {rule : Rule} (shaped : ∀ token ∈ blockTokens rule.body, token.Shaped)
    (tail : List Char) : Laid tail rule.tokens rule.text.toList := by
  have last : Laid tail [.mark .semicolon] " ;".toList := .blank (.single fun _ _ => rfl)
  have body := (block_spells shaped).append (.cons (by decide) _) last
  have colon : Laid tail ([.mark .colon] ++ (blockTokens rule.body ++ [.mark .semicolon]))
      (" : ".toList ++ ((blockText rule.body).toList ++ " ;".toList)) :=
    .blank (.token (fun _ same => Option.some.inj same ▸ rfl) (.blank body))
  have named : Laid tail ([wordToken rule.name.value] ++
      ([.mark .colon] ++ (blockTokens rule.body ++ [.mark .semicolon])))
      (rule.name.value.toList ++ (" : ".toList ++ ((blockText rule.body).toList ++ " ;".toList))) :=
    .cons (Scan.wordToken_text _) (.of_word rfl (by decide) _) colon
  rw [Rule.tokens, Rule.text]
  simp only [String.toList_append, List.append_assoc]
  cases rule.fragment with
  | false => exact named
  | true => exact .token (.of_loose (.cons (by decide) _) _) (.blank named)

theorem IsName.stable {word : String} (named : IsName word) : (wordToken word).Stable := by
  rcases named.cases with same | same <;> rw [same] <;> trivial

/-- What holds of the tokens of a rule body, of its name and of all keywords and marks. -/
theorem Rule.forall_tokens {Holds : Token → Prop} (keywords : ∀ word, Holds (.keyword word))
    (marks : ∀ sign, Holds (.mark sign)) {rule : Rule} (name : Holds (wordToken rule.name.value))
    (body : ∀ token ∈ blockTokens rule.body, Holds token) : ∀ token ∈ rule.tokens, Holds token := by
  simp only [Rule.tokens, List.forall_mem_append, List.forall_mem_singleton]
  refine ⟨?_, name, marks .colon, body, marks .semicolon⟩
  cases rule.fragment with
  | false => exact List.forall_mem_nil _
  | true => exact List.forall_mem_singleton.mpr (keywords .fragment)

theorem Grammar.forall_headerTokens {Holds : Token → Prop} (keywords : ∀ word, Holds (.keyword word))
    (marks : ∀ sign, Holds (.mark sign)) {grammar : Grammar}
    (name : Holds (wordToken grammar.name.value)) :
    ∀ token ∈ grammar.kind.tokens ++ ([wordToken grammar.name.value] ++ [.mark .semicolon]),
      Holds token := by
  simp only [List.forall_mem_append, List.forall_mem_singleton]
  refine ⟨?_, name, marks .semicolon⟩
  cases grammar.kind <;> simp [GrammarKind.tokens, keywords]

/-- The name and the body of a rule are spelled by scanned tokens. -/
structure Rule.Spelled (rule : Rule) : Prop where
  formed : rule.Formed
  tokens : ∀ token ∈ blockTokens rule.body, token.Shaped ∧ token.isTrivia = false

theorem Rule.Spelled.written {rule : Rule} {rest : List Char} {tokens : List Token}
    (spelled : rule.Spelled) (later : Written tokens rest) :
    Written (rule.tokens ++ tokens) ((rule.text ++ "\n").toList ++ rest) := by
  have known : ∀ token ∈ rule.tokens, token.Shaped ∧ token.isTrivia = false :=
    Rule.forall_tokens (fun _ => ⟨trivial, rfl⟩) (fun _ => ⟨trivial, rfl⟩)
      ⟨spelled.formed.spelled, spelled.formed.name.stable.kept⟩ spelled.tokens
  rw [String.toList_append, List.append_assoc]
  exact (Rule.laid (fun token member => (spelled.tokens token member).1) _).written known
    later.lineFeed

theorem rules_written {rules : List Rule} (spelled : ∀ rule ∈ rules, rule.Spelled) :
    Written (rules.flatMap Rule.tokens)
      (String.join (rules.map fun rule => rule.text ++ "\n")).toList := by
  induction rules with
  | nil => exact .nil
  | cons rule rest ih =>
      obtain ⟨here, later⟩ := List.forall_mem_cons.mp spelled
      rw [List.map_cons, String.join_cons, String.toList_append, List.flatMap_cons]
      exact here.written (ih later)

theorem GrammarKind.laid (kind : GrammarKind) {tokens : List Token} {tail text : List Char}
    (later : Laid tail tokens text) :
    Laid tail (kind.tokens ++ tokens) (kind.text.toList ++ ' ' :: text) := by
  have word : ∀ token : Token, ∀ rest : List Char, token.EndsBefore (' ' :: rest) :=
    fun token rest => .of_loose (.cons (by decide) _) _
  cases kind with
  | combined => exact .token (word _ _) (.blank later)
  | lexer => exact .token (word _ _) (.blank (.token (word _ _) (.blank later)))
  | parser => exact .token (word _ _) (.blank (.token (word _ _) (.blank later)))

/-- The written form of a grammar consists of its tokens. -/
theorem Grammar.written {grammar : Grammar} (named : IsName grammar.name.value)
    (shaped : (wordToken grammar.name.value).Shaped)
    (spelled : ∀ rule ∈ grammar.rules, rule.Spelled) :
    Written grammar.printedTokens grammar.text.toList := by
  have name (tail : List Char) : Laid tail ([wordToken grammar.name.value] ++ [.mark .semicolon])
      (grammar.name.value.toList ++ ";".toList) :=
    .cons (Scan.wordToken_text _) (.of_word rfl (by decide) _) (.single fun _ _ => rfl)
  have text : grammar.text.toList = (grammar.kind.text.toList ++ ' ' ::
      (grammar.name.value.toList ++ ";".toList)) ++
        '\n' :: (String.join (grammar.rules.map fun rule => rule.text ++ "\n")).toList := by
    simp [Grammar.text, String.toList_append]
  have known : ∀ token ∈ grammar.kind.tokens ++ ([wordToken grammar.name.value] ++
      [.mark .semicolon]), token.Shaped ∧ token.isTrivia = false :=
    Grammar.forall_headerTokens (fun _ => ⟨trivial, rfl⟩) (fun _ => ⟨trivial, rfl⟩)
      ⟨shaped, named.stable.kept⟩
  rw [text, Grammar.printedTokens]
  exact (GrammarKind.laid grammar.kind (name _)).written known (rules_written spelled).lineFeed

/-- What is needed of a rule for its written form to be read again, wherever it stands. -/
structure Rule.Printable (rule : Rule) : Prop where
  formed : rule.Formed
  tokens : ∀ token ∈ blockTokens rule.body, token.Shaped ∧ token.Stable
  separated : ∀ alternative ∈ nestedAlternatives rule.body, alternative.Separated

/-- What is needed of a rule for its tokens to be read again. -/
structure Rule.Restorable (rule : Rule) : Prop where
  formed : rule.Formed
  separated : ∀ alternative ∈ nestedAlternatives rule.body, alternative.Separated

theorem Rule.Printable.restorable {rule : Rule} (printable : rule.Printable) : rule.Restorable :=
  ⟨printable.formed, printable.separated⟩

theorem Rule.Printable.spelled {rule : Rule} (printable : rule.Printable) : rule.Spelled :=
  ⟨printable.formed, fun token member =>
    ⟨(printable.tokens token member).1, (printable.tokens token member).2.kept⟩⟩

/-- The tokens of a grammar stand in its written form if those of the rule bodies are stable. -/
theorem Grammar.standing {grammar : Grammar} (named : IsName grammar.name.value)
    (shaped : (wordToken grammar.name.value).Shaped)
    (spelled : ∀ rule ∈ grammar.rules, rule.Spelled)
    (stable : ∀ rule ∈ grammar.rules, ∀ token ∈ blockTokens rule.body, token.Stable) :
    Standing grammar.printedTokens grammar.text.toList := by
  apply (Grammar.written named shaped spelled).standing_of_stable
  rw [Grammar.printedTokens]
  refine List.forall_mem_append.mpr ⟨?_, fun token member => ?_⟩
  · exact Grammar.forall_headerTokens (fun _ => trivial) (fun _ => trivial) named.stable
  · obtain ⟨rule, listed, inside⟩ := List.mem_flatMap.mp member
    exact Rule.forall_tokens (fun _ => trivial) (fun _ => trivial)
      (spelled rule listed).formed.name.stable (stable rule listed) token inside

theorem Grammar.scans {grammar : Grammar} (named : IsName grammar.name.value)
    (shaped : (wordToken grammar.name.value).Shaped)
    (printable : ∀ rule ∈ grammar.rules, rule.Printable) :
    Scans grammar.text.toList grammar.printedTokens := by
  have spelled := fun rule listed => (printable rule listed).spelled
  apply (Grammar.written named shaped spelled).scans
  apply Grammar.standing named shaped spelled
  exact fun rule listed token member => ((printable rule listed).tokens token member).2

/-! ## Reading -/

/-- The other rule has the same name, kind and fragment modifier, and the body without options. -/
structure Rule.RestoredBy (rule again : Rule) : Prop where
  name : again.name.value = rule.name.value
  kind : again.kind = rule.kind
  fragment : again.fragment = rule.fragment
  body : blocksAgree (blockWithoutOptions rule.body) again.body = true

namespace Parse

open Reader

variable {bound : Nat} {more : List Terminal}

theorem keyword_reads (word : Keyword) :
    Reads bound (keyword word) [.keyword word] (fun _ => True) more := .token _

theorem modifiers_reread (fragment : Bool) :
    Reads bound (many modifier) (fragmentTokens fragment)
      (fun found => found.contains .fragment = fragment) Form.modifier.starts := by
  have none : Reads bound (many modifier) [] (· = []) Form.modifier.starts :=
    .many_nil (modifier_decides).misses
  cases fragment with
  | false => exact none.mono fun found same => same ▸ rfl
  | true =>
      have one : Reads bound modifier [.keyword .fragment] (· = .fragment) [] :=
        ((keyword_reads .fragment).giving _).orElse_left _
      have whole := Reads.many_cons one (List.cons_ne_nil _ _) (.unbarred [] _) none
      refine whole.mono fun found => ?_
      rintro ⟨value, rest, rfl, rfl, rfl⟩
      rfl

theorem rule_rereads {rule : Rule} (restorable : rule.Restorable) :
    Reads bound Parse.rule rule.tokens rule.RestoredBy Form.handler.starts := by
  have semicolon (found : Block) : Reads bound ((mark .semicolon).expecting "end of rule")
      [.mark .semicolon] (fun _ => True) [] := (mark_reads .semicolon).expecting _
  have handlers : Reads bound (many handler) [] (· = []) Form.handler.starts :=
    .many_nil (handler_decides).misses
  have parts : Reads bound (many rulePart) [] (· = [])
      (Form.choice .optionsBlock [.notion .namedAction]).starts := .many_nil (rulePart_decides).misses
  have ends (barred : List Terminal) (free : .mark .semicolon ∉ barred) (more : List Terminal) :
      Follows [.mark .semicolon] barred more := .cons (.mark .semicolon) rfl free _ _
  refine (modifiers_reread rule.fragment).andThen
    (.cons .name restorable.formed.name (by decide) _ _) fun modifiers hasFragment => ?_
  refine ((identifier_reads restorable.formed.name).expecting _).andThen (.unbarred _ _)
    fun name sameName => ?_
  refine .omitted _ (bracketed_decides).misses (by decide) ?_
  refine .omitted _ (bracketedClause_decides .returns).misses (by decide) ?_
  refine .omitted _ (throws_decides).misses (by decide) ?_
  refine .omitted _ (bracketedClause_decides .locals).misses (by decide) ?_
  refine parts.andThen (.cons (.mark .colon) rfl (by decide) _ _) fun found none => ?_
  refine (mark_reads .colon).andThen (.unbarred _ _) fun _ _ => ?_
  refine (block_rereads ⟨restorable.formed.body, restorable.separated⟩).andThen (ends _ (by decide) _)
    fun body agree => ?_
  refine (semicolon body).andThen (.unbarred [] _) fun _ _ => handlers.map fun _ _ => ?_
  refine ⟨sameName, ?_, hasFragment, agree⟩
  rw [sameName, restorable.formed.kind]

theorem fileSection_rereads {rule : Rule} (restorable : rule.Restorable) :
    Reads bound fileSection rule.tokens
      (fun found => ∃ again, found = .rule again ∧ rule.RestoredBy again) Form.handler.starts := by
  have skips : Skips (modeDeclaration.map Section.mode) rule.tokens Form.handler.starts := by
    have misses := (modeDeclaration_decides).misses.map Section.mode
    rw [Rule.tokens]
    cases rule.fragment with
    | false => exact misses.skips_cons .name restorable.formed.name (by decide) _ _
    | true => exact misses.skips_cons (.keyword .fragment) rfl (by decide) _ _
  refine .orElse_right skips (Reads.committed ((rule_rereads restorable).map fun again restored => ?_))
  exact ⟨again, rfl, restored⟩

theorem header_rereads (kind : GrammarKind) {name : String} (named : IsName name) :
    Reads bound header (kind.tokens ++ ([wordToken name] ++ [.mark .semicolon]))
      (fun found => found.1 = kind ∧ found.2.value = name) [] := by
  have rest (kind : Option GrammarKind) : Reads bound
      (((keyword .grammar).expecting "grammar declaration").andThen fun _ => committed
        (identifier.andThen fun found => (mark .semicolon).andThen fun _ =>
          Reader.succeed (kind.getD .combined, found)))
      ([.keyword .grammar] ++ ([wordToken name] ++ [.mark .semicolon]))
      (fun found => found.1 = kind.getD .combined ∧ found.2.value = name) [] :=
    ((keyword_reads .grammar).expecting _).andThen (.unbarred _ _) fun _ _ => .committed
      ((identifier_reads named).andThen (.unbarred _ _) fun found same =>
        (mark_reads .semicolon).map fun _ _ => ⟨rfl, same⟩)
  have present {word : Keyword} {kind : GrammarKind}
      (reads : Reads bound grammarKind [.keyword word] (· = kind) []) : Reads bound header
        ([.keyword word] ++ ([.keyword .grammar] ++ ([wordToken name] ++ [.mark .semicolon])))
        (fun found => found.1 = kind ∧ found.2.value = name) [] :=
    reads.present.andThen (.unbarred _ _) fun found ⟨_, there, same⟩ => by
      subst same there
      exact rest (some _)
  cases kind with
  | combined => exact .omitted _ (grammarKind_decides).misses (by decide) (rest none)
  | lexer => exact present (((keyword_reads .lexer).giving _).orElse_left _)
  | parser =>
      refine present (.orElse_right ?_ ((keyword_reads .parser).giving _))
      exact ((keyword_decides .lexer).misses.map _).skips_cons (.keyword .parser) rfl (by decide) _ _

/-- Rules that are read one after the other stand in no mode. -/
theorem rulesInModes_restored {rules : List Rule} {sections : List Section}
    (restored : List.Forall₂ (fun rule found => ∃ again, found = Section.rule again ∧
      rule.RestoredBy again) rules sections) :
    List.Forall₂ Rule.RestoredBy rules (rulesInModes none sections) := by
  induction restored with
  | nil => exact .nil
  | cons here _ ih =>
      obtain ⟨again, rfl, name, kind, fragment, body⟩ := here
      exact .cons ⟨name, kind, fragment, body⟩ ih

theorem grammar_restores {printed : Grammar} {lexemes : List Lexeme}
    (named : IsName printed.name.value) (restorable : ∀ rule ∈ printed.rules, rule.Restorable)
    (same : tokensOf lexemes = printed.printedTokens) :
    ∃ again, Parse.grammar lexemes = .done again [] ∧ again.kind = printed.kind ∧
      again.name.value = printed.name.value ∧
        List.Forall₂ Rule.RestoredBy printed.rules again.rules := by
  obtain ⟨front, back, rfl, frontSame, backSame⟩ := List.map_eq_append_iff.mp same
  have starts (barred : List Terminal)
      (apart : ∀ terminal ∈ (Form.notion .rule).starts, terminal ∉ barred) :
      ∀ rule ∈ printed.rules, ∃ token rest, rule.tokens = token :: rest ∧ token.terminal ∉ barred := by
    intro rule listed
    have isName := (restorable rule listed).formed.name
    rw [Rule.tokens]
    cases rule.fragment with
    | false => exact ⟨_, _, rfl, isName ▸ apart .name (by decide)⟩
    | true => exact ⟨_, _, rfl, apart (.keyword .fragment) (by decide)⟩
  obtain ⟨⟨kind, name⟩, readHeader, sameKind, sameName⟩ :=
    header_rereads printed.kind named (Nat.le_refl _) frontSame (fun _ _ => List.not_mem_nil)
  have clear : Clear (Form.notion .prequel).starts back :=
    .of_items (starts _ (by decide)) backSame
  obtain ⟨setback, missed⟩ := (prequel_decides).misses clear
  obtain ⟨sections, readSections, restored⟩ := Reads.exhaust
    (fun rule listed bound => fileSection_rereads (restorable rule listed))
    (starts Form.handler.starts (by decide)) backSame
  refine ⟨_, (andThen_of_done readHeader _).trans
    ((andThen_of_done (many_nil missed) _).trans (andThen_of_done readSections _)), sameKind,
      sameName, rulesInModes_restored restored⟩

theorem grammar_rereads {printed : Grammar} {lexemes : List Lexeme}
    (named : IsName printed.name.value) (printable : ∀ rule ∈ printed.rules, rule.Printable)
    (same : tokensOf lexemes = printed.printedTokens) :
    ∃ again, Parse.grammar lexemes = .done again [] ∧ again.kind = printed.kind ∧
      again.name.value = printed.name.value ∧
        List.Forall₂ Rule.RestoredBy printed.rules again.rules :=
  grammar_restores named (fun rule listed => (printable rule listed).restorable) same

end Parse

/-- A grammar without quotes in its embedded actions, and without character sets behind references,
is read again from its written form: its header is the same, and so are its rules, apart from their
options and what is not printed. -/
theorem Grammar.reread {source : String} {found : Grammar}
    (parsed : Grammar.parse source = .ok found)
    (unquoted : ∀ rule ∈ found.rules, ∀ alternative ∈ nestedAlternatives rule.body,
      alternative.Unquoted)
    (separated : ∀ rule ∈ found.rules, ∀ alternative ∈ nestedAlternatives rule.body,
      alternative.Separated) :
    ∃ again, Grammar.parse found.text = .ok again ∧ again.kind = found.kind ∧
      again.name.value = found.name.value ∧
        List.Forall₂ Rule.RestoredBy found.rules again.rules := by
  obtain ⟨lexemes, rest, scanned, read⟩ := Grammar.parse_eq_ok.mp parsed
  obtain ⟨⟨⟨named, spelled⟩, formed⟩, -⟩ :=
    Parse.grammar_builds (significant_shaped scanned) read
  have printable : ∀ rule ∈ found.rules, rule.Printable := by
    intro rule listed
    obtain ⟨_, -, -, known⟩ := Grammar.body_tokens scanned read listed
    have stable := block_stable (fun token member => (known token member).2) (unquoted rule listed)
    exact ⟨formed rule listed, fun token member => ⟨(known token member).1, stable token member⟩,
      separated rule listed⟩
  obtain ⟨again, scannedAgain, same⟩ :=
    Grammar.scans named spelled printable 0 0 (.withLimit Collector.defaultLimit)
  obtain ⟨result, readAgain, kind, name, rules⟩ := Parse.grammar_rereads named printable same
  have tokenized : tokenize found.text = .ok again := by
    rw [List.replicate_zero, List.nil_append] at scannedAgain
    rw [tokenize, scannedAgain]
    rfl
  exact ⟨result, Grammar.parse_eq_ok.mpr ⟨again, [], tokenized, readAgain⟩, kind, name, rules⟩

theorem Grammar.reread_group : ∃ found,
    Grammar.parse "grammar g; a[n] : x=b? [c] (@d \x7b\x7d : \x7b // e\n\x7d? f[g] ~('h' | I)*? | ) # j ;" =
      .ok found ∧
    (∀ rule ∈ found.rules, ∀ alternative ∈ nestedAlternatives rule.body,
      alternative.Unquoted ∧ alternative.Separated) ∧
    ∃ again, Grammar.parse found.text = .ok again ∧ again.kind = found.kind ∧
      again.name.value = found.name.value ∧
        List.Forall₂ Rule.RestoredBy found.rules again.rules := by
  have plain : (match Grammar.parse "grammar g; a[n] : x=b? [c] (@d \x7b\x7d : \x7b // e\n\x7d? f[g] ~('h' | I)*? | ) # j ;" with
    | .ok found => decide (∀ rule ∈ found.rules, ∀ alternative ∈ nestedAlternatives rule.body,
        alternative.Unquoted ∧ alternative.Separated)
    | .error _ => false) = true := by decide +kernel
  cases parsed : Grammar.parse "grammar g; a[n] : x=b? [c] (@d \x7b\x7d : \x7b // e\n\x7d? f[g] ~('h' | I)*? | ) # j ;" with
  | error rejection => rw [parsed] at plain; cases plain
  | ok found =>
      rw [parsed] at plain
      have holds := of_decide_eq_true plain
      exact ⟨found, rfl, holds, Grammar.reread parsed
        (fun rule listed alternative nested => (holds rule listed alternative nested).1)
        (fun rule listed alternative nested => (holds rule listed alternative nested).2)⟩

end Railroad
