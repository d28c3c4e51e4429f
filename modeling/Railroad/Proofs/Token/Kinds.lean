import Railroad.Token.Tokenize

/-!
# Kinds of tokens and of faults

A text begins with a token in one of a few ways, by its first characters and by what closes the
token or ends its run.  There are as many ways to begin with a fault as there are forms that stay
open, and else no token begins with the character.
-/

namespace Railroad

open Scan

/-- A text begins with a token that has `more` characters beyond the first. -/
inductive TokenAt : Char → List Char → Token → Nat → Prop where
  | lineComment (body : List Char) :
      TokenAt '/' ('/' :: body)
        (.lineComment (String.ofList (body.takeWhile fun c => !isLineBreak c)))
        (1 + (body.takeWhile fun c => !isLineBreak c).length)
  | blockComment {body : List Char} {length : Nat} (closed : closeComment body = some length)
      (plain : body.head? = some '*' → body.tail.head? = some '/') :
      TokenAt '/' ('*' :: body) .blockComment (1 + length)
  | docComment {body : List Char} {length : Nat} (closed : closeComment body = some length)
      (goesOn : body.head? ≠ some '/') :
      TokenAt '/' ('*' :: '*' :: body) (.docComment (String.ofList (body.take (length - 2))))
        (2 + length)
  | literal {rest : List Char} {length : Nat} (closed : reach '\'' ['\n', '\r'] rest = ⟨length, true⟩) :
      TokenAt '\'' rest (.literal (String.ofList ('\'' :: rest.take length))) length
  | charSet {rest : List Char} {length : Nat} (closed : reach ']' [] rest = ⟨length, true⟩) :
      TokenAt '[' rest (.charSet (String.ofList ('[' :: rest.take length))) length
  | action {rest : List Char} {length : Nat} (closed : blockLength 0 rest = some length) :
      TokenAt '{' rest (.action (String.ofList ('{' :: rest.take length))) length
  | mark {c : Char} {rest : List Char} {sign : Mark} {more : Nat}
      (unquoted : c ∉ ['/', '\'', '[', '{']) (found : mark? c rest.head? = some (sign, more)) :
      TokenAt c rest (.mark sign) more
  | word {c : Char} (letter : Text.isAlphabetic c = true) (rest : List Char) :
      TokenAt c rest (wordToken (String.ofList (c :: rest.takeWhile isWordCharacter)))
        (rest.takeWhile isWordCharacter).length
  | number {c : Char} (digit : c.isDigit = true) (rest : List Char) :
      TokenAt c rest (.integer (String.ofList (c :: rest.takeWhile Char.isDigit)))
        (rest.takeWhile Char.isDigit).length
  | lineFeed (rest : List Char) : TokenAt '\n' rest .lineFeed 0
  | blanks {c : Char} (blank : Text.isBlank c = true) (notFeed : c ≠ '\n') (rest : List Char) :
      TokenAt c rest .blanks (rest.takeWhile fun d => Text.isBlank d && d != '\n').length

/-- A text begins with a fault that is seen over `more` characters beyond the first. -/
inductive FaultAt : Char → List Char → Code → Nat → Prop where
  | openComment {text : List Char} {more : Nat} (inside : more ≤ text.length) :
      FaultAt '/' text .openComment more
  | slash {text : List Char} (noLine : text.head? ≠ some '/') (noBlock : text.head? ≠ some '*') :
      FaultAt '/' text .strayCharacter 0
  | openString (rest : List Char) :
      FaultAt '\'' rest .openString (reach '\'' ['\n', '\r'] rest).length
  | openSet (rest : List Char) : FaultAt '[' rest .openSet (reach ']' [] rest).length
  | openAction (rest : List Char) : FaultAt '{' rest .openAction 0
  | stray {c : Char} {rest : List Char} (unquoted : c ∉ ['/', '\'', '[', '{'])
      (noMark : mark? c rest.head? = none) (noLetter : ¬Text.isAlphabetic c = true)
      (noDigit : ¬c.isDigit = true) (noFeed : c ≠ '\n') (noBlank : ¬Text.isBlank c = true) :
      FaultAt c rest .strayCharacter 0

namespace Scan

theorem Reach.eq_of_closed {reach : Reach} (closed : reach.closed = true) :
    reach = ⟨reach.length, true⟩ := by
  rw [← closed]

variable {text : List Char} {token : Token} {code : Code} {opening more : Nat}

theorem closed_of_scanBlockComment (scanned : scanBlockComment opening text = .token token more) :
    token = .blockComment ∧ ∃ length, closeComment text = some length ∧ more = opening + length := by
  revert scanned
  fun_cases scanBlockComment opening text with
  | case1 length closed =>
      intro scanned
      cases scanned
      exact ⟨rfl, length, closed, rfl⟩
  | case2 => exact nofun

theorem tokenAt_of_scanComment (scanned : scanComment text = .token token more) :
    TokenAt '/' text token more := by
  revert scanned
  fun_cases scanComment text with
  | case1 =>
      intro scanned
      cases scanned
      exact .lineComment _
  | case2 body slash =>
      intro scanned
      obtain ⟨rfl, length, closed, rfl⟩ := closed_of_scanBlockComment scanned
      exact .blockComment closed fun _ => slash
  | case3 body goesOn =>
      fun_cases scanDocComment body with
      | case1 length closed =>
          intro scanned
          cases scanned
          exact .docComment closed goesOn
      | case2 => exact nofun
  | case4 body other =>
      intro scanned
      obtain ⟨rfl, length, closed, rfl⟩ := closed_of_scanBlockComment scanned
      refine .blockComment closed fun star => ?_
      obtain ⟨later, rfl⟩ := List.head?_eq_some_iff.mp star
      exact absurd rfl (other later)
  | case5 => exact nofun

theorem faultAt_of_scanBlockComment (inside : opening ≤ text.length) {rest : List Char}
    (failed : scanBlockComment opening rest = .fault code more) : FaultAt '/' text code more := by
  revert failed
  fun_cases scanBlockComment opening rest with
  | case1 => exact nofun
  | case2 =>
      intro failed
      cases failed
      exact .openComment inside

theorem faultAt_of_scanComment (failed : scanComment text = .fault code more) :
    FaultAt '/' text code more := by
  revert failed
  fun_cases scanComment text with
  | case1 => exact nofun
  | case2 | case4 => exact faultAt_of_scanBlockComment (Nat.le_add_left ..)
  | case3 body goesOn =>
      fun_cases scanDocComment body with
      | case1 => exact nofun
      | case2 =>
          intro failed
          cases failed
          exact .openComment (Nat.le_add_left ..)
  | case5 text noLine _ noBlock =>
      intro failed
      cases failed
      refine .slash (fun slash => ?_) fun star => ?_
      · obtain ⟨rest, rfl⟩ := List.head?_eq_some_iff.mp slash
        exact noLine rest rfl
      · obtain ⟨rest, rfl⟩ := List.head?_eq_some_iff.mp star
        exact noBlock rest rfl

/-- A mark is spelled by the first character and those that are counted with it. -/
theorem mark?_split {c : Char} {rest : List Char} {sign : Mark} {more : Nat}
    (found : mark? c rest.head? = some (sign, more)) :
    ∃ run later, rest = run ++ later ∧ run.length = more ∧ sign.text.toList = c :: run := by
  have single {sign : Mark} (text : sign.text.toList = [c]) :
      ∃ run later, rest = run ++ later ∧ run.length = 0 ∧ sign.text.toList = c :: run :=
    ⟨[], rest, rfl, rfl, text⟩
  have double {sign : Mark} {d : Char} (text : sign.text.toList = [c, d])
      (second : rest.head? = some d) :
      ∃ run later, rest = run ++ later ∧ run.length = 1 ∧ sign.text.toList = c :: run := by
    obtain ⟨later, rfl⟩ := List.head?_eq_some_iff.mp second
    exact ⟨[d], later, rfl, rfl, text⟩
  revert found
  fun_cases mark? c rest.head? with
  | case1 | case2 | case3 =>
      subst c
      split
      next second =>
        rintro ⟨⟩
        exact double rfl second
      next =>
        rintro ⟨⟩
        exact single rfl
  | case4 _ _ _ dash second =>
      subst dash
      rintro ⟨⟩
      exact double rfl second
  | case5 | case19 => exact nofun
  | _ =>
      subst c
      rintro ⟨⟩
      exact single rfl

end Scan

variable {c : Char} {rest : List Char} {token : Token} {code : Code} {more : Nat}

theorem tokenAt_of_scan (scanned : scan c rest = .token token more) :
    TokenAt c rest token more := by
  revert scanned
  fun_cases scan c rest with
  | case1 slash =>
      subst slash
      exact tokenAt_of_scanComment
  | case2 noSlash quote body closed =>
      intro scanned
      cases scanned
      exact quote ▸ .literal (Reach.eq_of_closed closed)
  | case4 noSlash noQuote bracket body closed =>
      intro scanned
      cases scanned
      exact bracket ▸ .charSet (Reach.eq_of_closed closed)
  | case6 noSlash noQuote noBracket brace length closed =>
      intro scanned
      cases scanned
      exact brace ▸ .action closed
  | case8 noSlash noQuote noBracket noBrace sign length found =>
      intro scanned
      cases scanned
      exact .mark (by simp [noSlash, noQuote, noBracket, noBrace]) found
  | case9 _ _ _ _ _ letter =>
      intro scanned
      cases scanned
      exact .word letter rest
  | case10 _ _ _ _ _ _ digit =>
      intro scanned
      cases scanned
      exact .number digit rest
  | case11 _ _ _ _ _ _ _ feed =>
      intro scanned
      cases scanned
      exact feed ▸ .lineFeed rest
  | case12 _ _ _ _ _ _ _ notFeed blank =>
      intro scanned
      cases scanned
      exact .blanks blank notFeed rest
  | case3 | case5 | case7 | case13 => exact nofun

theorem faultAt_of_scan (failed : scan c rest = .fault code more) : FaultAt c rest code more := by
  revert failed
  fun_cases scan c rest with
  | case1 slash =>
      subst slash
      exact faultAt_of_scanComment
  | case3 _ quote =>
      intro failed
      cases failed
      exact quote ▸ .openString rest
  | case5 _ _ bracket =>
      intro failed
      cases failed
      exact bracket ▸ .openSet rest
  | case7 _ _ _ brace =>
      intro failed
      cases failed
      exact brace ▸ .openAction rest
  | case13 noSlash noQuote noBracket noBrace noMark noLetter noDigit noFeed noBlank =>
      intro failed
      cases failed
      exact .stray (by simp [noSlash, noQuote, noBracket, noBrace]) noMark noLetter noDigit noFeed
        noBlank
  | _ => exact nofun

/-- What is read from a source has been scanned without a fault. -/
theorem clean_of_tokenize {source : String} {lexemes : List Lexeme}
    (scanned : tokenize source = .ok lexemes) :
    (lexemesFrom 0 (.withLimit Collector.defaultLimit) source.toList).2.finish = .ok () ∧
      (lexemesFrom 0 (.withLimit Collector.defaultLimit) source.toList).1 = lexemes := by
  unfold tokenize at scanned
  dsimp only at scanned
  split at scanned
  next clean => exact ⟨clean, Except.ok.inj scanned⟩
  next => cases scanned

end Railroad
