import Railroad.Token.Basic

/-!
# The language of grammar files

The notions of the grammar language in extended Backus-Naur form, over the terminals that tokens
stand for.  A word is derived without any regard to the order in which a reader tries the parts
of a form.  For every form it is computed which terminals its words can begin with and whether
the empty word is among them.
-/

namespace Railroad

/-- What the grammar language sees of a token. -/
inductive Terminal where
  | keyword (word : Keyword)
  | mark (sign : Mark)
  | name
  | literal
  | charSet
  | action
  | integer
  | trivia
  deriving DecidableEq, Repr

def Token.terminal : Token → Terminal
  | .keyword word => .keyword word
  | .mark sign => .mark sign
  | .tokenName _ | .ruleName _ => .name
  | .literal _ => .literal
  | .charSet _ => .charSet
  | .action _ => .action
  | .integer _ => .integer
  | .docComment _ | .blockComment | .lineComment _ | .blanks | .lineFeed => .trivia

theorem Token.terminal_eq_keyword {token : Token} {word : Keyword} :
    token.terminal = .keyword word ↔ token = .keyword word := by
  cases token <;> simp [terminal]

theorem Token.terminal_eq_mark {token : Token} {sign : Mark} :
    token.terminal = .mark sign ↔ token = .mark sign := by
  cases token <;> simp [terminal]

def tokensOf (lexemes : List Lexeme) : List Token := lexemes.map Lexeme.token

@[simp]
theorem tokensOf_append (first second : List Lexeme) :
    tokensOf (first ++ second) = tokensOf first ++ tokensOf second := List.map_append

/-- The terminals that a sequence of lexemes stands for. -/
def terminals (lexemes : List Lexeme) : List Terminal :=
  lexemes.map fun lexeme => lexeme.token.terminal

@[simp]
theorem terminals_nil : terminals [] = [] := rfl

@[simp]
theorem terminals_cons (lexeme : Lexeme) (rest : List Lexeme) :
    terminals (lexeme :: rest) = lexeme.token.terminal :: terminals rest := rfl

@[simp]
theorem terminals_append (first second : List Lexeme) :
    terminals (first ++ second) = terminals first ++ terminals second := List.map_append

inductive Notion where
  | file
  | prequel
  | delegate
  | namedAction
  | actionName
  | mode
  | rule
  | alternatives
  | alternative
  | command
  | element
  | block
  | atom
  | setElement
  | elementOptions
  | elementOption
  deriving DecidableEq, Repr

/-- An expression of extended Backus-Naur form. -/
inductive Form where
  | empty
  | terminal (terminal : Terminal)
  | notion (notion : Notion)
  | both (first second : Form)
  | either (first second : Form)
  | optional (form : Form)
  | many (form : Form)
  deriving Repr

namespace Form

def keyword (word : Keyword) : Form := terminal (.keyword word)

def mark (sign : Mark) : Form := terminal (.mark sign)

def name : Form := terminal .name

def literal : Form := terminal .literal

def charSet : Form := terminal .charSet

def action : Form := terminal .action

def integer : Form := terminal .integer

/-- One form after the other. -/
def sequence (forms : List Form) : Form := forms.foldr both empty

/-- One of two or more forms. -/
def choice (first : Form) : List Form → Form
  | [] => first
  | second :: others => either first (choice second others)

/-- One or more with separators between them. -/
def separated (form separator : Form) : Form :=
  sequence [form, many (sequence [separator, form])]

def optionsBlock : Form := sequence [keyword .options, action]

/-- A repetition sign, lazy if a question mark follows. -/
def suffix : Form :=
  sequence [choice (mark .question) [mark .star, mark .plus], optional (mark .question)]

def literalOrRange : Form := sequence [literal, optional (sequence [mark .doubleDot, literal])]

def reference : Form := sequence [name, optional charSet]

def setBlock : Form :=
  sequence [mark .openParen, separated (notion .setElement) (mark .bar), mark .closeParen]

def exclusion : Form := sequence [mark .tilde, choice (notion .setElement) [setBlock]]

def groupHeader : Form :=
  sequence [optional optionsBlock, many (notion .namedAction), mark .colon]

def elementLabel : Form := sequence [name, choice (mark .equals) [mark .plusEquals]]

def modifier : Form :=
  choice (keyword .fragment)
    [keyword .publicAccess, keyword .privateAccess, keyword .protectedAccess]

def handler : Form :=
  choice (sequence [keyword .catching, charSet, action]) [sequence [keyword .finishing, action]]

end Form

open Form in
/-- What each notion of the grammar language consists of. -/
def Notion.form : Notion → Form
  | file => sequence [
      optional (choice (keyword .lexer) [keyword .parser]), keyword .grammar, name,
      mark .semicolon, many (notion prequel), many (choice (notion mode) [notion rule])]
  | prequel => choice optionsBlock [
      sequence [keyword .importing, separated (notion delegate) (mark .comma), mark .semicolon],
      sequence [keyword .tokens, action],
      sequence [keyword .channels, action],
      notion namedAction]
  | delegate => sequence [name, optional (sequence [mark .equals, name])]
  | namedAction => sequence [
      mark .atSign, notion actionName,
      optional (sequence [mark .doubleColon, notion actionName]), action]
  | actionName => choice name [keyword .lexer, keyword .parser]
  | mode => sequence [keyword .mode, name, mark .semicolon]
  | rule => sequence [
      many modifier, name, optional charSet,
      optional (sequence [keyword .returns, charSet]),
      optional (sequence [keyword .throws, separated name (mark .comma)]),
      optional (sequence [keyword .locals, charSet]),
      many (choice optionsBlock [notion namedAction]),
      mark .colon, notion alternatives, mark .semicolon, many handler]
  | alternatives => separated (notion alternative) (mark .bar)
  | alternative => sequence [
      optional (notion elementOptions), many (notion element),
      optional (sequence [mark .hash, name]),
      optional (sequence [mark .arrow, separated (notion command) (mark .comma)])]
  | command => sequence [
      choice name [keyword .mode],
      optional (sequence [mark .openParen, choice name [integer], mark .closeParen])]
  | element => choice
      (sequence [
        optional elementLabel, choice (notion atom) [notion block], optional suffix])
      [sequence [action, optional (mark .question), optional (notion elementOptions)]]
  | block => sequence [
      mark .openParen, optional groupHeader, notion alternatives, mark .closeParen]
  | atom => sequence [
      choice literalOrRange [charSet, reference, exclusion, mark .dot],
      optional (notion elementOptions)]
  | setElement => sequence [
      choice literalOrRange [charSet, name], optional (notion elementOptions)]
  | elementOptions => sequence [
      mark .less, separated (notion elementOption) (mark .comma), mark .greater]
  | elementOption => sequence [
      name, optional (sequence [mark .equals, choice name [literal, integer, action]])]

/-! ## Words -/

/-- The words of a form. -/
inductive Derives : Form → List Terminal → Prop where
  | empty : Derives .empty []
  | terminal (terminal : Terminal) : Derives (.terminal terminal) [terminal]
  | notion {notion : Notion} {word : List Terminal} (derives : Derives notion.form word) :
      Derives (.notion notion) word
  | both {first second : Form} {front back : List Terminal} (head : Derives first front)
      (tail : Derives second back) : Derives (.both first second) (front ++ back)
  | left {first second : Form} {word : List Terminal} (derives : Derives first word) :
      Derives (.either first second) word
  | right {first second : Form} {word : List Terminal} (derives : Derives second word) :
      Derives (.either first second) word
  | absent {form : Form} : Derives (.optional form) []
  | present {form : Form} {word : List Terminal} (derives : Derives form word) :
      Derives (.optional form) word
  | done {form : Form} : Derives (.many form) []
  | again {form : Form} {front back : List Terminal} (head : Derives form front)
      (tail : Derives (.many form) back) : Derives (.many form) (front ++ back)

namespace Derives

variable {form first second : Form} {word front back : List Terminal}

@[simp]
theorem empty_iff : Derives .empty word ↔ word = [] := by
  constructor
  · rintro ⟨⟩
    rfl
  · rintro rfl
    exact .empty

@[simp]
theorem terminal_iff {wanted : Terminal} : Derives (.terminal wanted) word ↔ word = [wanted] := by
  constructor
  · rintro ⟨⟩
    rfl
  · rintro rfl
    exact .terminal wanted

theorem notion_iff {notion : Notion} : Derives (.notion notion) word ↔ Derives notion.form word := by
  constructor
  · intro derives
    cases derives with
    | notion derives => exact derives
  · exact .notion

theorem both_iff : Derives (.both first second) word ↔
    ∃ front back, word = front ++ back ∧ Derives first front ∧ Derives second back := by
  constructor
  · intro derives
    cases derives with
    | both head tail => exact ⟨_, _, rfl, head, tail⟩
  · rintro ⟨front, back, rfl, head, tail⟩
    exact .both head tail

theorem sequence_cons_iff {forms : List Form} : Derives (.sequence (form :: forms)) word ↔
    ∃ front back, word = front ++ back ∧ Derives form front ∧ Derives (.sequence forms) back :=
  both_iff

@[simp]
theorem sequence_nil_iff : Derives (.sequence []) word ↔ word = [] := empty_iff

@[simp]
theorem sequence_singleton_iff : Derives (.sequence [form]) word ↔ Derives form word := by
  simp [sequence_cons_iff]

theorem either_iff :
    Derives (.either first second) word ↔ Derives first word ∨ Derives second word := by
  constructor
  · intro derives
    cases derives with
    | left derives => exact Or.inl derives
    | right derives => exact Or.inr derives
  · rintro (derives | derives)
    · exact .left derives
    · exact .right derives

theorem of_either (derives : Derives (.either form form) word) : Derives form word :=
  (either_iff.mp derives).elim id id

theorem optional_iff : Derives (.optional form) word ↔ word = [] ∨ Derives form word := by
  constructor
  · intro derives
    cases derives with
    | absent => exact Or.inl rfl
    | present derives => exact Or.inr derives
  · rintro (rfl | derives)
    · exact .absent
    · exact .present derives

theorem many_iff : Derives (.many form) word ↔
    word = [] ∨ ∃ front back, word = front ++ back ∧ Derives form front ∧
      Derives (.many form) back := by
  constructor
  · intro derives
    cases derives with
    | done => exact Or.inl rfl
    | again head tail => exact Or.inr ⟨_, _, rfl, head, tail⟩
  · rintro (rfl | ⟨front, back, rfl, head, tail⟩)
    · exact .done
    · exact .again head tail

/-- A sequence with one more form in front. -/
theorem sequence_cons {forms : List Form} (head : Derives form front)
    (tail : Derives (.sequence forms) back) : Derives (.sequence (form :: forms)) (front ++ back) :=
  .both head tail

theorem sequence_pair (head : Derives first front) (tail : Derives second back) :
    Derives (.sequence [first, second]) (front ++ back) :=
  .both head (sequence_singleton_iff.mpr tail)

theorem sequence_pair_iff : Derives (.sequence [first, second]) word ↔
    ∃ front back, word = front ++ back ∧ Derives first front ∧ Derives second back := by
  rw [sequence_cons_iff]
  simp only [sequence_singleton_iff]

theorem sequence_append {forms others : List Form} (head : Derives (.sequence forms) front)
    (tail : Derives (.sequence others) back) :
    Derives (.sequence (forms ++ others)) (front ++ back) := by
  induction forms generalizing front with
  | nil =>
      rw [empty_iff.mp head]
      exact tail
  | cons form rest ih =>
      obtain ⟨here, later, rfl, headHere, headLater⟩ := both_iff.mp head
      rw [List.append_assoc]
      exact .both headHere (ih headLater)

theorem sequence_append_iff {forms others : List Form} :
    Derives (.sequence (forms ++ others)) word ↔
      ∃ front back, word = front ++ back ∧ Derives (.sequence forms) front ∧
        Derives (.sequence others) back := by
  constructor
  · intro derives
    induction forms generalizing word with
    | nil => exact ⟨[], word, rfl, .empty, derives⟩
    | cons form rest ih =>
        obtain ⟨front, back, rfl, head, tail⟩ := both_iff.mp derives
        obtain ⟨middle, last, rfl, inner, outer⟩ := ih tail
        exact ⟨front ++ middle, last, (List.append_assoc ..).symm, .both head inner, outer⟩
  · rintro ⟨front, back, rfl, head, tail⟩
    exact sequence_append head tail

end Derives

/-- Whether the empty word is one of the notion. -/
def Notion.nullable : Notion → Bool
  | alternatives | alternative => true
  | _ => false

/-- The terminals that the words of a notion begin with. -/
def Notion.starts : Notion → List Terminal
  | file => [.keyword .lexer, .keyword .parser, .keyword .grammar]
  | prequel => [
      .keyword .options, .keyword .importing, .keyword .tokens, .keyword .channels, .mark .atSign]
  | delegate | elementOption => [.name]
  | namedAction => [.mark .atSign]
  | actionName => [.name, .keyword .lexer, .keyword .parser]
  | mode => [.keyword .mode]
  | rule => [
      .keyword .fragment, .keyword .publicAccess, .keyword .privateAccess,
      .keyword .protectedAccess, .name]
  | alternatives => [
      .mark .less, .name, .literal, .charSet, .mark .tilde, .mark .dot, .mark .openParen, .action,
      .mark .hash, .mark .arrow, .mark .bar]
  | alternative => [
      .mark .less, .name, .literal, .charSet, .mark .tilde, .mark .dot, .mark .openParen, .action,
      .mark .hash, .mark .arrow]
  | command => [.name, .keyword .mode]
  | element => [
      .name, .literal, .charSet, .mark .tilde, .mark .dot, .mark .openParen, .action]
  | block => [.mark .openParen]
  | atom => [.literal, .charSet, .name, .mark .tilde, .mark .dot]
  | setElement => [.literal, .charSet, .name]
  | elementOptions => [.mark .less]

namespace Form

def nullable : Form → Bool
  | empty => true
  | terminal _ => false
  | notion part => part.nullable
  | both first second => first.nullable && second.nullable
  | either first second => first.nullable || second.nullable
  | optional _ | many _ => true

def starts : Form → List Terminal
  | empty => []
  | terminal only => [only]
  | notion part => part.starts
  | both first second => first.starts ++ (if first.nullable then second.starts else [])
  | either first second => first.starts ++ second.starts
  | optional form | many form => form.starts

/-- No word of the form is empty or begins with one of these terminals. -/
def Apart (form : Form) (barred : List Terminal) : Prop :=
  form.nullable = false ∧ ∀ terminal ∈ form.starts, terminal ∉ barred

instance (form : Form) (barred : List Terminal) : Decidable (form.Apart barred) :=
  inferInstanceAs (Decidable (_ ∧ _))

/-- A word that could go on by `more` is told from the word of the form behind it; behind both,
the terminals by which the two could go on are among `further`. -/
def Joins (form : Form) (more further : List Terminal) : Prop :=
  (∀ terminal ∈ form.starts, terminal ∉ more) ∧
    (form.nullable = true → ∀ terminal ∈ more, terminal ∈ further)

instance (form : Form) (more further : List Terminal) : Decidable (form.Joins more further) :=
  inferInstanceAs (Decidable (_ ∧ _))

theorem Joins.nil (form : Form) (further : List Terminal) : form.Joins [] further :=
  ⟨fun _ _ => List.not_mem_nil, fun _ _ none => absurd none List.not_mem_nil⟩

end Form

theorem Notion.nullable_form (notion : Notion) : notion.form.nullable = notion.nullable := by
  cases notion <;> rfl

theorem Notion.starts_form (notion : Notion) :
    ∀ terminal ∈ notion.form.starts, terminal ∈ notion.starts := by
  cases notion <;> decide

namespace Derives

variable {form : Form} {word front back : List Terminal}

theorem nullable_of_nil (derives : Derives form []) : form.nullable = true := by
  generalize none : [] = word at derives
  induction derives with
  | empty | absent | present | done | again => rfl
  | terminal => cases none
  | notion _ ih => exact (Notion.nullable_form _).symm.trans (ih none)
  | both _ _ head tail =>
      obtain ⟨frontNone, backNone⟩ := List.append_eq_nil_iff.mp none.symm
      simp only [Form.nullable, head frontNone.symm, tail backNone.symm, Bool.and_self]
  | left _ ih => simp only [Form.nullable, ih none, Bool.true_or]
  | right _ ih => simp only [Form.nullable, ih none, Bool.or_true]

theorem ne_nil (derives : Derives form word) (firm : form.nullable = false) : word ≠ [] := by
  rintro rfl
  rw [derives.nullable_of_nil] at firm
  cases firm

/-- A word begins with one of the terminals computed for its form. -/
theorem head_mem_starts {terminal : Terminal} {rest : List Terminal}
    (derives : Derives form (terminal :: rest)) : terminal ∈ form.starts := by
  generalize whole : terminal :: rest = word at derives
  induction derives generalizing rest with
  | empty | absent | done => cases whole
  | terminal => cases whole; exact List.mem_singleton_self _
  | notion _ ih => exact Notion.starts_form _ _ (ih whole)
  | @both first second front back head tail headIH tailIH =>
      cases front with
      | nil =>
          have empty := head.nullable_of_nil
          exact List.mem_append_right _ (by simpa only [empty, if_true] using tailIH whole)
      | cons start others =>
          cases whole
          exact List.mem_append_left _ (headIH rfl)
  | left _ ih => exact List.mem_append_left _ (ih whole)
  | right _ ih => exact List.mem_append_right _ (ih whole)
  | present _ ih => exact ih whole
  | @again form front back head tail headIH tailIH =>
      cases front with
      | nil => exact tailIH whole
      | cons start others =>
          cases whole
          exact headIH rfl

/-- A part of a sequence that cannot begin with the next terminal is empty. -/
theorem skip {terminal : Terminal} (derives : Derives form front)
    (split : terminal :: word = front ++ back) (free : terminal ∉ form.starts) :
    front = [] ∧ back = terminal :: word := by
  cases front with
  | nil => exact ⟨rfl, split.symm⟩
  | cons first others =>
      cases split
      exact absurd derives.head_mem_starts free

/-- A part of a sequence that is not empty begins with the next terminal. -/
theorem enter {terminal : Terminal} (derives : Derives form front)
    (split : terminal :: word = front ++ back) (firm : form.nullable = false) :
    ∃ others, front = terminal :: others ∧ word = others ++ back := by
  cases front with
  | nil => exact absurd rfl (derives.ne_nil firm)
  | cons first others =>
      cases split
      exact ⟨others, rfl, rfl⟩

end Derives

/-- Terminals inside rule bodies. -/
def Notion.bodyLetters : List Terminal :=
  [.name, .literal, .charSet, .action, .integer, .keyword .options, .keyword .lexer,
    .keyword .parser, .keyword .mode, .mark .colon, .mark .doubleColon, .mark .bar,
    .mark .openParen, .mark .closeParen, .mark .question, .mark .star, .mark .plus,
    .mark .plusEquals, .mark .equals, .mark .tilde, .mark .doubleDot, .mark .dot, .mark .arrow,
    .mark .comma, .mark .less, .mark .greater, .mark .hash, .mark .atSign]

/-- Terminals that may occur in the words of a notion. -/
def Notion.letters : Notion → List Terminal
  | actionName => [.name, .keyword .lexer, .keyword .parser]
  | namedAction => [
      .mark .atSign, .name, .keyword .lexer, .keyword .parser, .mark .doubleColon, .action]
  | elementOption => [.name, .mark .equals, .literal, .integer, .action]
  | elementOptions => [
      .mark .less, .name, .mark .equals, .literal, .integer, .action, .mark .comma, .mark .greater]
  | delegate => [.name, .mark .equals]
  | mode => [.keyword .mode, .name, .mark .semicolon]
  | prequel => [
      .keyword .options, .keyword .importing, .keyword .tokens, .keyword .channels, .name,
      .mark .equals, .mark .comma, .mark .semicolon, .mark .atSign, .keyword .lexer,
      .keyword .parser, .mark .doubleColon, .action]
  | file | rule =>
      [.keyword .grammar, .keyword .fragment, .keyword .publicAccess, .keyword .privateAccess,
        .keyword .protectedAccess, .keyword .returns, .keyword .throws, .keyword .locals,
        .keyword .catching, .keyword .finishing, .keyword .importing, .keyword .tokens,
        .keyword .channels, .mark .semicolon] ++ bodyLetters
  | _ => bodyLetters

/-- Terminals that may occur in the words of a form. -/
def Form.letters : Form → List Terminal
  | empty => []
  | terminal only => [only]
  | notion part => part.letters
  | both first second | either first second => first.letters ++ second.letters
  | optional form | many form => form.letters

theorem Notion.letters_form (notion : Notion) :
    ∀ terminal ∈ notion.form.letters, terminal ∈ notion.letters := by
  cases notion <;> decide

theorem Derives.mem_letters {form : Form} {word : List Terminal} (derives : Derives form word) :
    ∀ terminal ∈ word, terminal ∈ form.letters := by
  induction derives with
  | empty | absent | done => exact fun terminal member => absurd member List.not_mem_nil
  | terminal only => exact fun terminal member => member
  | notion _ ih => exact fun terminal member => Notion.letters_form _ terminal (ih terminal member)
  | both _ _ headIH tailIH =>
      intro terminal member
      rcases List.mem_append.mp member with inFront | behind
      · exact List.mem_append_left _ (headIH terminal inFront)
      · exact List.mem_append_right _ (tailIH terminal behind)
  | left _ ih => exact fun terminal member => List.mem_append_left _ (ih terminal member)
  | right _ ih => exact fun terminal member => List.mem_append_right _ (ih terminal member)
  | present _ ih => exact ih
  | again _ _ headIH tailIH =>
      intro terminal member
      rcases List.mem_append.mp member with inFront | behind
      · exact headIH terminal inFront
      · exact tailIH terminal behind

end Railroad
