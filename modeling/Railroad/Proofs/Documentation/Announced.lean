import Mathlib.Data.List.TakeWhile
import Railroad.Grammar.Documentation
import Railroad.Proofs.Grammar.Form

/-!
# What documentation comments announce

A documentation comment announces the rule whose declaration seems to begin behind it.  The
tokens behind a comment are looked at without reading the grammar, so a stretch of tokens is
called quiet if no comment inside it can announce anything, whatever follows the stretch.
-/

namespace Railroad

/-- Whether the token is left for the grammar reader. -/
def Token.isRead (token : Token) : Bool := !token.isTrivia

@[simp]
theorem Token.isRead_iff {token : Token} : token.isRead = true ↔ token.isTrivia = false := by
  rw [isRead, Bool.not_eq_true']

theorem tokensOf_significant (lexemes : List Lexeme) :
    tokensOf (significant lexemes) = (tokensOf lexemes).filter Token.isRead := by
  rw [tokensOf, tokensOf, List.filter_map]
  rfl

theorem tokensOf_cons (lexeme : Lexeme) (rest : List Lexeme) :
    tokensOf (lexeme :: rest) = lexeme.token :: tokensOf rest := rfl

theorem terminals_eq (lexemes : List Lexeme) :
    terminals lexemes = (tokensOf lexemes).map Token.terminal := by
  rw [terminals, tokensOf, List.map_map]
  rfl

namespace Documentation

/-- The announced rules with the comments that announce them. -/
def announced : List Token → List (String × String)
  | [] => []
  | .docComment body :: rest =>
      ((declaredRule? rest).map fun name => (name, body)).toList ++ announced rest
  | _ :: rest => announced rest

/-- The documentation is what has been announced, the last comment for a rule counting. -/
theorem collect_eq_foldl (found : Catalog String String) (tokens : List Token) :
    collect found tokens =
      (announced tokens).foldl (fun found noted => found.put noted.1 (clean noted.2)) found := by
  fun_induction collect found tokens with
  | case1 => rfl
  | case2 found body rest name declared ih => rw [announced, declared, ih]; rfl
  | case3 found body rest declared ih => rw [announced, declared, ih]; rfl
  | case4 found token rest other ih =>
      rw [announced, ih]
      exact other

def terminalIsModifier : Terminal → Bool
  | .keyword .fragment | .keyword .publicAccess | .keyword .privateAccess
  | .keyword .protectedAccess => true
  | _ => false

def terminalStartsRuleBody : Terminal → Bool
  | .mark .colon | .mark .atSign | .charSet => true
  | .keyword .returns | .keyword .locals | .keyword .throws | .keyword .options => true
  | _ => false

/-- Whether a declaration seems to begin here. -/
def seemsDeclared (word : List Terminal) : Bool :=
  match word.dropWhile terminalIsModifier with
  | .name :: next :: _ => terminalStartsRuleBody next
  | _ => false

theorem isModifier_eq (token : Token) : isModifier token = terminalIsModifier token.terminal := by
  cases token with
  | keyword word => cases word <;> rfl
  | _ => rfl

theorem startsRuleBody_eq (token : Token) :
    startsRuleBody token = terminalStartsRuleBody token.terminal := by
  cases token with
  | keyword word => cases word <;> rfl
  | mark sign => cases sign <;> rfl
  | _ => rfl

theorem not_isTrivia_of_isModifier {token : Token} (modifier : isModifier token = true) :
    token.isTrivia = false := by
  cases token with
  | keyword word => rfl
  | _ => cases modifier

theorem not_isTrivia_of_startsRuleBody {token : Token} (starts : startsRuleBody token = true) :
    token.isTrivia = false := by
  cases token with
  | keyword word | mark sign | charSet text => rfl
  | _ => cases starts

/-- A declaration that begins with this token's name is seen. -/
theorem declaredRule?_eq_some {tokens : List Token} {name : String}
    (declared : declaredRule? tokens = some name) : ∃ modifiers token next rest,
      tokens = modifiers ++ token :: next :: rest ∧
        (∀ modifier ∈ modifiers, isModifier modifier = true) ∧
        (token = .ruleName name ∨ token = .tokenName name) ∧ startsRuleBody next = true := by
  have cut := List.takeWhile_append_dropWhile (p := isModifier) (l := tokens)
  have modifiers := List.all_eq_true.mp (List.all_takeWhile (p := isModifier) (l := tokens))
  unfold declaredRule? at declared
  split at declared
  next spelled next rest shape =>
    rw [shape] at cut
    split at declared
    next starts =>
      cases declared
      exact ⟨_, _, next, rest, cut.symm, modifiers, Or.inl rfl, starts⟩
    next => cases declared
  next spelled next rest shape =>
    rw [shape] at cut
    split at declared
    next starts =>
      cases declared
      exact ⟨_, _, next, rest, cut.symm, modifiers, Or.inr rfl, starts⟩
    next => cases declared
  next => cases declared

theorem declaredRule?_of_modifiers {modifiers rest : List Token} {token next : Token}
    {name : String} (all : ∀ modifier ∈ modifiers, isModifier modifier = true)
    (named : token = .ruleName name ∨ token = .tokenName name)
    (starts : startsRuleBody next = true) :
    declaredRule? (modifiers ++ token :: next :: rest) = some name := by
  have cut : (modifiers ++ token :: next :: rest).dropWhile isModifier = token :: next :: rest := by
    rw [List.dropWhile_append_of_pos all]
    rcases named with rfl | rfl <;> rfl
  rcases named with rfl | rfl <;> simp only [declaredRule?, cut, starts, if_true]

/-- Comments between the tokens of a declaration hide it; without them it is seen all the more. -/
theorem seemsDeclared_of_declaredRule {tokens : List Token} {name : String}
    (declared : declaredRule? tokens = some name) :
    seemsDeclared ((tokens.filter Token.isRead).map Token.terminal) = true := by
  obtain ⟨modifiers, token, next, rest, rfl, all, named, starts⟩ := declaredRule?_eq_some declared
  have kept : modifiers.filter Token.isRead = modifiers :=
    List.filter_eq_self.mpr fun modifier member =>
      Token.isRead_iff.mpr (not_isTrivia_of_isModifier (all modifier member))
  have ofWord : token.isRead = true ∧ token.terminal = .name := by
    rcases named with rfl | rfl <;> exact ⟨rfl, rfl⟩
  have ofNext : next.isRead = true := Token.isRead_iff.mpr (not_isTrivia_of_startsRuleBody starts)
  have passed : ∀ terminal ∈ modifiers.map Token.terminal, terminalIsModifier terminal = true := by
    intro terminal member
    obtain ⟨modifier, listed, rfl⟩ := List.mem_map.mp member
    exact isModifier_eq modifier ▸ all modifier listed
  rw [List.filter_append, kept, List.filter_cons_of_pos ofWord.1, List.filter_cons_of_pos ofNext,
    List.map_append, List.map_cons, List.map_cons, ofWord.2, seemsDeclared,
    List.dropWhile_append_of_pos passed]
  exact (startsRuleBody_eq next).symm.trans starts

/-- No declaration seems to begin in this stretch, whatever follows it. -/
def Quiet : List Terminal → Prop
  | [] => True
  | first :: rest => (∀ behind, seemsDeclared (first :: (rest ++ behind)) = false) ∧ Quiet rest

namespace Quiet

theorem append {word other : List Terminal} (quiet : Quiet word) (more : Quiet other) :
    Quiet (word ++ other) := by
  induction word with
  | nil => exact more
  | cons first rest ih =>
      refine ⟨fun behind => ?_, ih quiet.2⟩
      have here := quiet.1 (other ++ behind)
      rwa [← List.append_assoc] at here

theorem cons {first : Terminal} {word : List Terminal} (plain : terminalIsModifier first = false)
    (different : first ≠ .name) (quiet : Quiet word) : Quiet (first :: word) := by
  refine ⟨fun behind => ?_, quiet⟩
  rw [seemsDeclared, List.dropWhile_cons_of_neg (Bool.eq_false_iff.mp plain)]
  split
  next shape => exact absurd (List.cons.inj shape).1 different
  next => rfl

/-- A name declares nothing in front of a token that begins no rule body. -/
theorem name_cons {next : Terminal} {word : List Terminal}
    (plain : terminalStartsRuleBody next = false) (quiet : Quiet (next :: word)) :
    Quiet (.name :: next :: word) :=
  ⟨fun _ => plain, quiet⟩

theorem of_letters {word : List Terminal}
    (plain : ∀ terminal ∈ word, terminalIsModifier terminal = false ∧ terminal ≠ .name) :
    Quiet word := by
  induction word with
  | nil => trivial
  | cons first rest ih =>
      obtain ⟨here, later⟩ := List.forall_mem_cons.mp plain
      exact cons here.1 here.2 (ih later)

/-- The last terminal of a quiet stretch is no modifier. -/
theorem last {word : List Terminal} (quiet : Quiet word) :
    ∀ terminal ∈ word.getLast?, terminalIsModifier terminal = false := by
  induction word with
  | nil => exact fun terminal none => absurd none (Option.not_mem_none _)
  | cons first rest ih =>
      intro terminal isLast
      cases rest with
      | nil =>
          obtain rfl : first = terminal := Option.some.inj isLast
          rw [Bool.eq_false_iff]
          intro modifier
          have seen := quiet.1 [.name, .mark .colon]
          rw [List.nil_append, seemsDeclared, List.dropWhile_cons_of_pos modifier] at seen
          exact Bool.noConfusion seen
      | cons second others =>
          rw [List.getLast?_cons_cons] at isLast
          exact ih quiet.2 terminal isLast

end Quiet

theorem announced_trivia {token : Token} (skipped : token.isTrivia = true) {rest : List Token}
    (nothing : declaredRule? rest = none) : announced (token :: rest) = announced rest := by
  cases token with
  | docComment body => rw [announced, nothing]; rfl
  | blockComment | lineComment | blanks | lineFeed => rfl
  | _ => cases skipped

theorem announced_cons {token : Token} (kept : token.isTrivia = false) (rest : List Token) :
    announced (token :: rest) = announced rest := by
  cases token with
  | docComment body => cases kept
  | _ => rfl

theorem declaredRule?_trivia {token : Token} (skipped : token.isTrivia = true)
    (rest : List Token) : declaredRule? (token :: rest) = none := by
  cases token with
  | docComment | blockComment | lineComment | blanks | lineFeed => rfl
  | _ => cases skipped

/-- Comments in front of a token that begins no declaration announce nothing. -/
theorem announced_run {comments : List Token} (skipped : ∀ token ∈ comments, token.isTrivia = true)
    {token : Token} (kept : token.isTrivia = false) {rest : List Token}
    (nothing : declaredRule? (token :: rest) = none) :
    announced (comments ++ token :: rest) = announced rest := by
  induction comments with
  | nil => exact announced_cons kept rest
  | cons comment others ih =>
      obtain ⟨here, later⟩ := List.forall_mem_cons.mp skipped
      have none : declaredRule? (others ++ token :: rest) = none := by
        cases others with
        | nil => exact nothing
        | cons second more =>
            exact declaredRule?_trivia (later second (List.mem_cons_self ..)) _
      rw [List.cons_append, announced_trivia here none, ih later]

/-- A quiet stretch of what is read is passed over with all comments in it. -/
theorem announced_quiet {noted word rest : List Lexeme} (split : significant noted = word ++ rest)
    (quiet : Quiet (terminals word)) : ∃ front back, noted = front ++ back ∧
      front.getLast? = word.getLast? ∧ significant back = rest ∧
        announced (tokensOf noted) = announced (tokensOf back) := by
  induction word generalizing noted with
  | nil => exact ⟨[], noted, rfl, rfl, split, rfl⟩
  | cons lexeme word ih =>
      rw [List.cons_append] at split
      obtain ⟨comments, others, rfl, skipped, kept, later⟩ := List.filter_eq_cons_iff.mp split
      have read : lexeme.token.isRead = true := kept
      have remaining : significant others = word ++ rest := later
      obtain ⟨front, back, rfl, last, isRest, same⟩ := ih remaining quiet.2
      have trivia : ∀ token ∈ tokensOf comments, token.isTrivia = true := by
        intro token member
        obtain ⟨comment, listed, rfl⟩ := List.mem_map.mp member
        simpa using skipped comment listed
      have nothing : declaredRule? (lexeme.token :: tokensOf (front ++ back)) = none := by
        refine Option.eq_none_iff_forall_ne_some.mpr fun name declared => ?_
        have seen := seemsDeclared_of_declaredRule declared
        rw [List.filter_cons_of_pos read, List.map_cons, ← tokensOf_significant, remaining,
          tokensOf_append, List.map_append, ← terminals_eq, ← terminals_eq] at seen
        exact Bool.false_ne_true ((quiet.1 _).symm.trans seen)
      refine ⟨comments ++ lexeme :: front, back, by rw [List.append_assoc, List.cons_append], ?_,
        isRest, ?_⟩
      · rw [List.getLast?_append, List.getLast?_cons, List.getLast?_cons, last]
        rfl
      · rw [tokensOf_append, tokensOf_cons, announced_run trivia (Token.isRead_iff.mp read) nothing, same]

/-- The comment that the tokens end with, modifiers behind it left aside. -/
def lastComment (tokens : List Token) : Option String :=
  match tokens.reverse.dropWhile isModifier with
  | .docComment body :: _ => some body
  | _ => none

/-- What may stand in front of the name in a declaration: modifiers, and comments among them. -/
def Heading (tokens : List Token) : Prop :=
  ∀ token ∈ tokens, isModifier token = true ∨ ∃ body, token = .docComment body

/-- Either a heading has no comment, or it is cut at its last one. -/
theorem Heading.cases {heading : List Token} (only : Heading heading) :
    (lastComment heading = none ∧ ∀ token ∈ heading, isModifier token = true) ∨
      ∃ body behind, lastComment heading = some body ∧
        heading.reverse.dropWhile isModifier = .docComment body :: behind := by
  cases shape : heading.reverse.dropWhile isModifier with
  | nil =>
      refine Or.inl ⟨by rw [lastComment, shape], fun token member => ?_⟩
      exact List.dropWhile_eq_nil_iff.mp shape token (List.mem_reverse.mpr member)
  | cons token behind =>
      have other : ¬isModifier token = true := by
        have first := List.head?_dropWhile_not isModifier heading.reverse
        rw [shape] at first
        simpa using first
      have member : token ∈ heading := by
        have inside : token ∈ heading.reverse.dropWhile isModifier := shape ▸ List.mem_cons_self ..
        exact List.mem_reverse.mp ((List.dropWhile_sublist _).subset inside)
      obtain ⟨body, rfl⟩ := (only token member).resolve_left other
      exact Or.inr ⟨body, behind, by rw [lastComment, shape], rfl⟩

/-- Behind other tokens the last comment is that of the heading, if it has one. -/
theorem lastComment_append {heading : List Token} (only : Heading heading) (front : List Token) :
    lastComment (front ++ heading) = (lastComment heading).or (lastComment front) := by
  rw [lastComment, List.reverse_append, List.dropWhile_append]
  rcases only.cases with ⟨none, all⟩ | ⟨body, behind, some, shape⟩
  · have nothing : heading.reverse.dropWhile isModifier = [] :=
      List.dropWhile_eq_nil_iff.mpr fun token member => all token (List.mem_reverse.mp member)
    rw [nothing, none, List.isEmpty_nil, if_pos rfl]
    rfl
  · rw [shape, some, List.isEmpty_cons, if_neg Bool.false_ne_true]
    rfl

/-- What ends another part of a file ends with no comment. -/
theorem lastComment_eq_none {front : List Token}
    (ends : ∀ token ∈ front.getLast?, isModifier token = false ∧ token.isTrivia = false) :
    lastComment front = none := by
  rw [← List.head?_reverse] at ends
  rw [lastComment]
  cases shape : front.reverse with
  | nil => rfl
  | cons last others =>
      obtain ⟨plain, kept⟩ := ends last (by rw [shape]; rfl)
      rw [List.dropWhile_cons_of_neg (Bool.eq_false_iff.mp plain)]
      cases last with
      | docComment body => cases kept
      | _ => rfl

/-- A comment among the modifiers keeps the declaration from an earlier one. -/
theorem declaredRule?_of_comment {heading : List Token} (only : Heading heading) {body : String}
    (inside : .docComment body ∈ heading) (rest : List Token) :
    declaredRule? (heading ++ rest) = none := by
  induction heading with
  | nil => exact absurd inside List.not_mem_nil
  | cons first others ih =>
      obtain ⟨here, later⟩ := List.forall_mem_cons.mp only
      rcases here with modifier | ⟨_, rfl⟩
      · rcases List.mem_cons.mp inside with rfl | further
        · cases modifier
        · rw [List.cons_append, declaredRule?, List.dropWhile_cons_of_pos modifier]
          exact ih later further
      · exact declaredRule?_trivia rfl _

section Declaration

variable {heading rest : List Token} {token next : Token} {name : String}
  (named : token = .ruleName name ∨ token = .tokenName name) (starts : startsRuleBody next = true)

include named

theorem not_isTrivia_of_name : token.isTrivia = false := by
  rcases named with rfl | rfl <;> rfl

include starts

theorem declaredRule?_heading (only : Heading heading) :
    declaredRule? (heading ++ token :: next :: rest) =
      if lastComment heading = none then some name else none := by
  rcases only.cases with ⟨none, all⟩ | ⟨body, behind, some, shape⟩
  · rw [if_pos none, declaredRule?_of_modifiers all named starts]
  · rw [some, if_neg (Option.some_ne_none body)]
    have inside : Token.docComment body ∈ heading.reverse.dropWhile isModifier :=
      shape ▸ List.mem_cons_self ..
    have comment := List.mem_reverse.mp ((List.dropWhile_sublist _).subset inside)
    exact declaredRule?_of_comment only comment _

/-- The last comment of its heading announces a declaration. -/
theorem announced_declaration (only : Heading heading) :
    announced (heading ++ token :: next :: rest) =
      ((lastComment heading).map fun body => (name, body)).toList ++ announced (next :: rest) := by
  induction heading with
  | nil => exact announced_cons (not_isTrivia_of_name named) _
  | cons first others ih =>
      obtain ⟨here, later⟩ := List.forall_mem_cons.mp only
      have whole : lastComment (first :: others) = (lastComment others).or (lastComment [first]) :=
        lastComment_append later [first]
      rw [List.cons_append, whole]
      rcases here with modifier | ⟨body, rfl⟩
      · have none : lastComment [first] = Option.none := by
          rw [lastComment, List.reverse_singleton, List.dropWhile_cons_of_pos modifier]
          rfl
        rw [announced_cons (not_isTrivia_of_isModifier modifier), ih later, none, Option.or_none]
      · rw [announced, declaredRule?_heading named starts later, ih later]
        cases lastComment others with
        | none => rfl
        | some later => rfl

end Declaration

/-- Behind a semicolon nothing is declared that begins in front of it. -/
theorem declaredRule?_semicolon (inside rest : List Token) :
    declaredRule? (inside ++ .mark .semicolon :: rest) = declaredRule? inside := by
  induction inside with
  | nil => rfl
  | cons first others ih =>
      rw [List.cons_append]
      by_cases modifier : isModifier first = true
      · rw [declaredRule?, declaredRule?, List.dropWhile_cons_of_pos modifier,
          List.dropWhile_cons_of_pos modifier]
        exact ih
      · rw [declaredRule?, declaredRule?, List.dropWhile_cons_of_neg modifier,
          List.dropWhile_cons_of_neg modifier]
        cases others with
        | nil => cases first <;> rfl
        | cons second more => cases first <;> rfl

theorem announced_semicolon (inside rest : List Token) :
    announced (inside ++ .mark .semicolon :: rest) = announced inside ++ announced rest := by
  induction inside with
  | nil => rfl
  | cons first others ih =>
      cases first with
      | docComment body =>
          rw [List.cons_append, announced, announced, declaredRule?_semicolon, ih,
            List.append_assoc]
      | _ => exact ih

end Documentation

end Railroad
