import Mathlib.Data.List.Chain
import Railroad.Proofs.Grammar.Form

/-!
# Neighbouring terminals

For every form it is computed which terminals its words can end with, and with that what can stand
next to each other.  The word `mode` stands in front of a name only where a mode is declared; as a
command of a lexer rule it is followed by something else.
-/

namespace Railroad

/-- The terminals that the words of a notion end with. -/
def Notion.finals : Notion → List Terminal
  | file | prequel | rule => [.mark .semicolon, .action]
  | delegate => [.name]
  | namedAction => [.action]
  | actionName => [.name, .keyword .lexer, .keyword .parser]
  | mode => [.mark .semicolon]
  | alternatives => [
      .mark .greater, .literal, .charSet, .name, .mark .dot, .mark .closeParen, .mark .question,
      .mark .star, .mark .plus, .action, .keyword .mode, .mark .bar]
  | alternative => [
      .mark .greater, .literal, .charSet, .name, .mark .dot, .mark .closeParen, .mark .question,
      .mark .star, .mark .plus, .action, .keyword .mode]
  | command => [.name, .keyword .mode, .mark .closeParen]
  | element => [
      .mark .greater, .literal, .charSet, .name, .mark .dot, .mark .closeParen, .mark .question,
      .mark .star, .mark .plus, .action]
  | block => [.mark .closeParen]
  | atom => [.literal, .charSet, .name, .mark .dot, .mark .closeParen, .mark .greater]
  | setElement => [.literal, .charSet, .name, .mark .greater]
  | elementOptions => [.mark .greater]
  | elementOption => [.name, .literal, .integer, .action]

/-- The terminals that the words of a form end with. -/
def Form.finals : Form → List Terminal
  | empty => []
  | terminal only => [only]
  | notion part => part.finals
  | both first second => second.finals ++ (if second.nullable then first.finals else [])
  | either first second => first.finals ++ second.finals
  | optional form | many form => form.finals

theorem Notion.finals_form (notion : Notion) :
    ∀ terminal ∈ notion.form.finals, terminal ∈ notion.finals := by
  cases notion <;> decide

/-- A word ends with one of the terminals computed for its form. -/
theorem Derives.last_mem_finals {form : Form} {word : List Terminal} (derives : Derives form word)
    {terminal : Terminal} (last : terminal ∈ word.getLast?) : terminal ∈ form.finals := by
  induction derives with
  | empty | absent | done => cases last
  | terminal => cases last; exact List.mem_singleton_self _
  | notion _ ih => exact Notion.finals_form _ _ (ih last)
  | @both first second front back head tail headIH tailIH =>
      cases back with
      | nil =>
          rw [List.append_nil] at last
          exact List.mem_append_right _ (by simpa only [tail.nullable_of_nil, if_true] using headIH last)
      | cons start others =>
          rw [List.getLast?_append_of_ne_nil _ (List.cons_ne_nil _ _)] at last
          exact List.mem_append_left _ (tailIH last)
  | left _ ih => exact List.mem_append_left _ (ih last)
  | right _ ih => exact List.mem_append_right _ (ih last)
  | present _ ih => exact ih last
  | @again form front back head tail headIH tailIH =>
      cases back with
      | nil => exact headIH (List.append_nil front ▸ last)
      | cons start others =>
          rw [List.getLast?_append_of_ne_nil _ (List.cons_ne_nil _ _)] at last
          exact tailIH last

/-- Two neighbours that do not begin the declaration of a mode. -/
def Terminal.Plain (first second : Terminal) : Prop := ¬(first = .keyword .mode ∧ second = .name)

/-- Whether one form can follow another without a name behind `mode`. -/
def Form.follows (first second : Form) : Bool :=
  !(first.finals.contains (.keyword .mode) && second.starts.contains .name)

/-- Whether no name stands behind `mode` in the words of a form, modes and files left out. -/
def Form.isPlain : Form → Bool
  | empty | terminal _ => true
  | notion part => part != .mode && part != .file
  | both first second => first.isPlain && second.isPlain && first.follows second
  | either first second => first.isPlain && second.isPlain
  | optional form => form.isPlain
  | many form => form.isPlain && form.follows form

theorem Notion.isPlain_form {notion : Notion} (notMode : notion ≠ .mode) (notFile : notion ≠ .file) :
    notion.form.isPlain = true := by
  cases notion with
  | mode => exact absurd rfl notMode
  | file => exact absurd rfl notFile
  | _ => decide

namespace Derives

variable {form first second : Form} {word front back : List Terminal}

theorem plain_between (head : Derives first front) (tail : Derives second back)
    (follows : first.follows second = true) :
    ∀ last ∈ front.getLast?, ∀ next ∈ back.head?, last.Plain next := by
  rintro last ends next starts ⟨rfl, rfl⟩
  obtain ⟨others, rfl⟩ := List.head?_eq_some_iff.mp starts
  have inEnds := List.contains_iff_mem.mpr (head.last_mem_finals ends)
  have inStarts := List.contains_iff_mem.mpr tail.head_mem_starts
  rw [Form.follows, inEnds, inStarts] at follows
  cases follows

theorem plain (derives : Derives form word) (isPlain : form.isPlain = true) :
    word.IsChain Terminal.Plain := by
  induction derives with
  | empty | absent | done => exact .nil
  | terminal only => exact .singleton only
  | notion _ ih =>
      simp only [Form.isPlain, Bool.and_eq_true, bne_iff_ne] at isPlain
      exact ih (Notion.isPlain_form isPlain.1 isPlain.2)
  | both head tail headIH tailIH =>
      simp only [Form.isPlain, Bool.and_eq_true] at isPlain
      obtain ⟨⟨plainHead, plainTail⟩, follows⟩ := isPlain
      exact List.isChain_append.mpr
        ⟨headIH plainHead, tailIH plainTail, plain_between head tail follows⟩
  | left _ ih =>
      simp only [Form.isPlain, Bool.and_eq_true] at isPlain
      exact ih isPlain.1
  | right _ ih =>
      simp only [Form.isPlain, Bool.and_eq_true] at isPlain
      exact ih isPlain.2
  | present _ ih => exact ih isPlain
  | again head tail headIH tailIH =>
      have later := tailIH isPlain
      simp only [Form.isPlain, Bool.and_eq_true] at isPlain
      exact List.isChain_append.mpr ⟨headIH isPlain.1, later, plain_between head tail isPlain.2⟩

end Derives

/-- The names of the modes that are declared among the tokens. -/
def modesOf : List Token → List String
  | .keyword .mode :: .ruleName name :: .mark .semicolon :: rest
  | .keyword .mode :: .tokenName name :: .mark .semicolon :: rest => name :: modesOf rest
  | _ :: rest => modesOf rest
  | [] => []

theorem modesOf_cons {first : Token} {rest : List Token}
    (plain : ∀ next ∈ rest.head?, first.terminal.Plain next.terminal) :
    modesOf (first :: rest) = modesOf rest := by
  rw [modesOf.eq_def]
  split
  next same =>
    cases same
    exact absurd ⟨rfl, rfl⟩ (plain _ rfl)
  next same =>
    cases same
    exact absurd ⟨rfl, rfl⟩ (plain _ rfl)
  next same =>
    cases same
    rfl
  next none => cases none

theorem modesOf_eq_nil {tokens : List Token} (free : .keyword .mode ∉ tokens) :
    modesOf tokens = [] := by
  induction tokens with
  | nil => rfl
  | cons first rest ih =>
      have other : first ≠ .keyword .mode := fun same => free (same ▸ List.mem_cons_self)
      rw [modesOf_cons fun next _ both => other (Token.terminal_eq_keyword.mp both.1)]
      exact ih fun later => free (List.mem_cons_of_mem _ later)

/-- No mode is declared where no name stands behind `mode`. -/
theorem modesOf_append {word : List Lexeme} (plain : (terminals word).IsChain Terminal.Plain)
    (ends : .keyword .mode ∉ (terminals word).getLast?) (rest : List Token) :
    modesOf (tokensOf word ++ rest) = modesOf rest := by
  induction word with
  | nil => rfl
  | cons lexeme others ih =>
      cases others with
      | nil =>
          refine modesOf_cons fun next _ => ?_
          rintro ⟨same, -⟩
          exact ends (congrArg some same)
      | cons next others =>
          obtain ⟨here, later⟩ := List.isChain_cons_cons.mp plain
          refine (modesOf_cons fun found same => ?_).trans (ih later ?_)
          · cases same
            exact here
          · rwa [terminals_cons, terminals_cons, List.getLast?_cons_cons] at ends

/-- Words of a form without `mode` in front of a name declare no mode. -/
theorem Derives.declares_none {form : Form} {word : List Lexeme}
    (derives : Derives form (terminals word)) (isPlain : form.isPlain = true)
    (ends : .keyword .mode ∉ form.finals) (rest : List Token) :
    modesOf (tokensOf word ++ rest) = modesOf rest :=
  modesOf_append (derives.plain isPlain) (fun last => ends (derives.last_mem_finals last)) rest

end Railroad
