import Railroad.Proofs.Grammar.Form
import Railroad.Proofs.Printing.Laid
import Railroad.Proofs.Text.Splitting

/-!
# Scanning laid out tokens again

Tokens are scanned again from the text that they are laid out in.  An action has to stand for it:
its last brace must close it in front of what follows, where a quote that is left open in it may
meet another one.  Without quotes, an action stands anywhere.
-/

namespace Railroad

open Scan

namespace Text

/-- All code points of some ranges. -/
def codes (ranges : List (Nat × Nat)) : List Nat :=
  ranges.flatMap fun (first, last) => List.range' first (last + 1 - first)

theorem mem_codes_of_covers {ranges : List (Nat × Nat)} {code : Nat}
    (covered : covers ranges code = true) : code ∈ codes ranges := by
  induction ranges with
  | nil => cases covered
  | cons range rest ih =>
      simp only [covers, Bool.and_eq_true, Bool.or_eq_true, decide_eq_true_eq] at covered
      rcases covered with ⟨above, below | later⟩
      · refine List.mem_append_left _ (List.mem_range'_1.mpr ⟨above, ?_⟩)
        omega
      · exact List.mem_append_right _ (ih later)

/-- A blank character is neither a letter nor a digit. -/
theorem not_word_of_blank {c : Char} (blank : isBlank c = true) :
    isAlphabetic c = false ∧ c.isDigit = false := by
  have all : (codes blankRanges).all (fun code =>
      !isAlphabetic (Char.ofNat code) && !(Char.ofNat code).isDigit) = true := by decide +kernel
  have here := List.all_eq_true.mp all _ (mem_codes_of_covers blank)
  rw [Char.ofNat_toNat] at here
  simpa using here

/-- No word goes on with a blank. -/
theorem not_wordCharacter_of_blank {c : Char} (blank : isBlank c = true) :
    isWordCharacter c = false := by
  have all : (codes blankRanges).all (fun code => !isWordCharacter (Char.ofNat code)) = true := by
    decide +kernel
  have here := List.all_eq_true.mp all _ (mem_codes_of_covers blank)
  rwa [Char.ofNat_toNat, Bool.not_eq_true'] at here

end Text

/-- The characters that a mark or a quoted form begins with. -/
def signs : List Char :=
  ['/', '\'', '[', '{', ':', '+', '.', '-', ';', '|', '(', ')', '?', '*', '=', '~', ',', '<', '>',
    '#', '@']

/-- What is no sign begins a word, a number or a stretch of blanks. -/
theorem scan_of_no_sign {c : Char} (noSign : c ∉ signs) (rest : List Char) : scan c rest =
    if Text.isAlphabetic c then
      .token (wordToken (String.ofList (c :: rest.takeWhile isWordCharacter)))
        (rest.takeWhile isWordCharacter).length
    else if c.isDigit then
      .token (.integer (String.ofList (c :: rest.takeWhile Char.isDigit)))
        (rest.takeWhile Char.isDigit).length
    else if c = '\n' then .token .lineFeed 0
    else if Text.isBlank c then
      .token .blanks (rest.takeWhile fun d => Text.isBlank d && d != '\n').length
    else .fault .strayCharacter 0 := by
  simp only [signs, List.mem_cons, List.not_mem_nil, or_false, not_or] at noSign
  simp only [scan, mark?, noSign, if_false]

theorem no_sign_of_letter {c : Char} (letter : Text.isAlphabetic c = true) : c ∉ signs := by
  have all : signs.all (fun sign => !Text.isAlphabetic sign) = true := by decide
  intro sign
  have none := List.all_eq_true.mp all c sign
  rw [letter] at none
  cases none

theorem no_sign_of_digit {c : Char} (digit : c.isDigit = true) : c ∉ signs := by
  have all : signs.all (fun sign => !sign.isDigit) = true := by decide
  intro sign
  have none := List.all_eq_true.mp all c sign
  rw [digit] at none
  cases none

theorem no_sign_of_blank {c : Char} (blank : Text.isBlank c = true) : c ∉ signs := by
  have all : signs.all (fun sign => !Text.isBlank sign) = true := by decide
  intro sign
  have none := List.all_eq_true.mp all c sign
  rw [blank] at none
  cases none

theorem scan_word {c : Char} {run next : List Char} (letter : Text.isAlphabetic c = true)
    (all : ∀ d ∈ run, isWordCharacter d = true)
    (stops : ∀ d ∈ next.head?, (!isWordCharacter d) = true) :
    scan c (run ++ next) = .token (wordToken (String.ofList (c :: run))) run.length := by
  rw [scan_of_no_sign (no_sign_of_letter letter), if_pos letter, takeWhile_append_stop all stops]

theorem scan_number {c : Char} {run next : List Char} (digit : c.isDigit = true)
    (all : ∀ d ∈ run, d.isDigit = true) (stops : ∀ d ∈ next.head?, (!d.isDigit) = true) :
    scan c (run ++ next) = .token (.integer (String.ofList (c :: run))) run.length := by
  have noLetter : ¬Text.isAlphabetic c = true := by
    intro letter
    rw [not_digit_of_letter letter] at digit
    cases digit
  rw [scan_of_no_sign (no_sign_of_digit digit), if_neg noLetter, if_pos digit,
    takeWhile_append_stop all stops]

/-- There are no quotes in the text. -/
def Unquoted (text : String) : Prop := '\'' ∉ text.toList ∧ '"' ∉ text.toList

theorem closeComment_pos {text : List Char} {length : Nat}
    (closed : closeComment text = some length) : 2 ≤ length := by
  obtain ⟨body, -, size⟩ := closeComment_split closed
  rw [← size]
  exact Nat.le_add_left ..

theorem closeComment_local {body rest : List Char} {length : Nat}
    (closed : closeComment (body ++ rest) = some length) (inside : length ≤ body.length)
    (next : List Char) : closeComment (body ++ next) = some length := by
  have two := closeComment_pos closed
  induction body generalizing length with
  | nil => exact absurd inside (by rw [List.length_nil]; omega)
  | cons c tail ih =>
      cases tail with
      | nil => exact absurd inside (by rw [List.length_singleton]; omega)
      | cons d others =>
          by_cases ends : c = '*' ∧ d = '/'
          · obtain ⟨rfl, rfl⟩ := ends
            exact closed
          · have goesOn (behind : List Char) : closeComment (c :: d :: others ++ behind) =
                (closeComment (d :: others ++ behind)).map (· + 1) := by
              rw [List.cons_append, closeComment.eq_def]
              split
              next same => cases same
              next same =>
                simp only [List.cons_append, List.cons.injEq] at same
                exact absurd ⟨same.1, same.2.1⟩ ends
              next same => rw [(List.cons.inj same).2]
            rw [goesOn] at closed ⊢
            obtain ⟨inner, found, rfl⟩ := Option.map_eq_some_iff.mp closed
            rw [ih found (Nat.le_of_succ_le_succ inside) (closeComment_pos found)]
            rfl

theorem takeWhile_local {meets : Char → Bool} {body rest : List Char}
    (inside : ((body ++ rest).takeWhile meets).length < body.length) (next : List Char) :
    (body ++ next).takeWhile meets = (body ++ rest).takeWhile meets := by
  induction body with
  | nil => exact absurd inside (Nat.not_lt_zero _)
  | cons c tail ih =>
      rw [List.cons_append, List.cons_append, List.takeWhile_cons, List.takeWhile_cons] at *
      split
      next meet =>
        rw [if_pos meet, List.length_cons, List.length_cons] at inside
        rw [ih (Nat.lt_of_succ_lt_succ inside)]
      next => rfl

theorem pieceMore_slash {first : Char} (line : first ≠ '/') (star : first ≠ '*')
    (tail : List Char) : pieceMore '/' (first :: tail) = some 0 := by
  simp only [pieceMore, Char.reduceEq, or_self, if_false, if_true]
  split
  next same => exact absurd (List.cons.inj same).1 line
  next same => exact absurd (List.cons.inj same).1 star
  next => rfl

theorem pieceMore_single {c : Char} (escape : c ≠ '\\') (notQuote : c ≠ '\'' ∧ c ≠ '"')
    (slash : c ≠ '/') (rest : List Char) : pieceMore c rest = some 0 := by
  simp only [pieceMore, escape, notQuote, slash, or_self, if_false]

/-- What belongs to one piece of an action is seen from the piece and one character behind it. -/
theorem pieceMore_local {c : Char} {body rest : List Char} {more : Nat}
    (piece : pieceMore c (body ++ rest) = some more) (inside : more < body.length)
    (notQuote : c ≠ '\'' ∧ c ≠ '"') (next : List Char) : pieceMore c (body ++ next) = some more := by
  obtain ⟨first, tail, rfl⟩ := List.exists_cons_of_length_pos (Nat.zero_lt_of_lt inside)
  rw [List.length_cons] at inside
  rw [List.cons_append] at piece ⊢
  by_cases escape : c = '\\'
  · subst escape
    have one (behind : List Char) : pieceMore '\\' (first :: behind) = some 1 := by
      simp only [pieceMore, if_true, List.length_cons, Nat.le_add_left, Nat.min_eq_left]
    rwa [one] at piece ⊢
  by_cases slash : c = '/'
  · subst slash
    by_cases line : first = '/'
    · subst line
      have comment (behind : List Char) : pieceMore '/' ('/' :: behind) =
          some (1 + (behind.takeWhile fun d => d != '\n').length) := rfl
      rw [comment] at piece ⊢
      obtain rfl := Option.some.inj piece
      have stops : ((tail ++ rest).takeWhile fun d => d != '\n').length < tail.length := by omega
      rw [takeWhile_local stops next]
    by_cases star : first = '*'
    · subst star
      have comment (behind : List Char) : pieceMore '/' ('*' :: behind) =
          (closeComment behind).map (1 + ·) := rfl
      rw [comment] at piece ⊢
      obtain ⟨inner, found, rfl⟩ := Option.map_eq_some_iff.mp piece
      rw [closeComment_local found (by omega) next, Option.map_some]
    · rwa [pieceMore_slash line star] at piece ⊢
  · rwa [pieceMore_single escape notQuote slash] at piece ⊢

theorem blockLength_pos {depth length : Nat} {text : List Char}
    (found : blockLength depth text = some length) : 0 < length := by
  fun_induction blockLength depth text generalizing length with
  | case1 | case4 => cases found
  | case2 => cases found; exact Nat.one_pos
  | case3 | case5 =>
      obtain ⟨inner, -, rfl⟩ := Option.map_eq_some_iff.mp found
      exact Nat.succ_pos _

theorem blockLength_brace (depth : Nat) (rest : List Char) : blockLength depth ('}' :: rest) =
    match depth with
    | 0 => some 1
    | outer + 1 => (blockLength outer rest).map (· + 1) := by
  rw [blockLength.eq_def]
  rfl

theorem blockLength_piece {c : Char} (goesOn : c ≠ '}') (depth : Nat) (rest : List Char) :
    blockLength depth (c :: rest) = (pieceMore c rest).bind fun more =>
      (blockLength (if c = '{' then depth + 1 else depth) (rest.drop more)).map (· + (more + 1)) := by
  rw [blockLength.eq_def]
  simp only [if_neg goesOn]
  cases pieceMore c rest <;> rfl

/-- Without quotes, a block ends at the same brace whatever stands behind it. -/
theorem blockLength_local {depth : Nat} {body rest : List Char}
    (found : blockLength depth (body ++ rest) = some body.length)
    (unquoted : ∀ c ∈ body, c ≠ '\'' ∧ c ≠ '"') (next : List Char) :
    blockLength depth (body ++ next) = some body.length := by
  induction size : body.length using Nat.strongRecOn generalizing depth body with
  | ind size ih =>
      subst size
      cases body with
      | nil => exact absurd (blockLength_pos found) (Nat.lt_irrefl 0)
      | cons c tail =>
          have unquotedTail : ∀ d ∈ tail, d ≠ '\'' ∧ d ≠ '"' := fun d member =>
            unquoted d (List.mem_cons_of_mem _ member)
          rw [List.cons_append] at found ⊢
          by_cases closes : c = '}'
          · subst closes
            rw [blockLength_brace] at found ⊢
            cases depth with
            | zero => exact found
            | succ outer =>
                obtain ⟨inner, foundInner, same⟩ := Option.map_eq_some_iff.mp found
                obtain rfl := Nat.succ.inj same
                have again := ih _ (Nat.lt_succ_self _) foundInner unquotedTail rfl
                simp only [again, Option.map_some, List.length_cons]
          · rw [blockLength_piece closes] at found ⊢
            obtain ⟨more, piece, later⟩ := Option.bind_eq_some_iff.mp found
            obtain ⟨inner, foundInner, same⟩ := Option.map_eq_some_iff.mp later
            have positive := blockLength_pos foundInner
            rw [List.length_cons] at same
            have inside : more < tail.length := by omega
            have dropped (behind : List Char) :
                (tail ++ behind).drop more = tail.drop more ++ behind :=
              List.drop_append_of_le_length (Nat.le_of_lt inside)
            have size : (tail.drop more).length = inner := by
              rw [List.length_drop]
              omega
            rw [dropped, ← size] at foundInner
            have again := ih _ (by rw [List.length_drop, List.length_cons]; omega) foundInner
              (fun d member => unquotedTail d (List.mem_of_mem_drop member)) rfl
            rw [pieceMore_local piece inside (unquoted c (List.mem_cons_self ..)) next,
              Option.bind_some, dropped, again, size, Option.map_some, same, List.length_cons]

/-! ## Single tokens -/

/-- The text of an action. -/
def Token.code? : Token → Option String
  | action code => some code
  | _ => none

/-- An action is closed by its own last brace; other tokens end by themselves. -/
def Token.StandsBefore (token : Token) (behind : List Char) : Prop :=
  ∀ code ∈ token.code?,
    blockLength 0 (code.toList.tail ++ behind) = some code.toList.tail.length

instance (token : Token) (behind : List Char) : Decidable (token.StandsBefore behind) :=
  inferInstanceAs (Decidable (∀ code ∈ token.code?, _))

/-- Tokens that are scanned again wherever their text stands. -/
def Token.Stable : Token → Prop
  | action text => Unquoted text
  | docComment _ | blockComment | lineComment _ | blanks | lineFeed => False
  | _ => True

theorem Token.Stable.kept {token : Token} (stable : token.Stable) : token.isTrivia = false := by
  cases token with
  | docComment | blockComment | lineComment | blanks | lineFeed => exact stable.elim
  | _ => rfl

theorem Token.Stable.standsBefore {token : Token} (stable : token.Stable) (shaped : token.Shaped)
    (behind : List Char) : token.StandsBefore behind := by
  intro code isCode
  cases token with
  | action text =>
      cases isCode
      obtain ⟨body, rest, spelled, closed⟩ := shaped
      rw [spelled, List.tail_cons]
      refine blockLength_local closed (fun c member => ?_) behind
      have inCode : c ∈ code.toList := spelled ▸ List.mem_cons_of_mem _ member
      exact ⟨fun quote => stable.1 (quote ▸ inCode), fun quote => stable.2 (quote ▸ inCode)⟩
  | _ => cases isCode

theorem isWord_of_keyword (keyword : Keyword) : IsWord keyword.text := by
  have first : keyword.text.toList.head?.any Text.isAlphabetic = true := by
    cases keyword <;> decide
  have others : keyword.text.toList.tail.all isWordCharacter = true := by
    cases keyword <;> decide
  cases spelled : keyword.text.toList with
  | nil => rw [spelled] at first; cases first
  | cons c run =>
      rw [spelled] at first others
      exact ⟨c, run, spelled, first, List.all_eq_true.mp others⟩

theorem scan_of_isWord {word : String} {c : Char} {run next : List Char} (isWord : IsWord word)
    (spelled : word.toList = c :: run) (stops : ∀ d ∈ next.head?, (!isWordCharacter d) = true) :
    scan c (run ++ next) = .token (wordToken word) run.length := by
  obtain ⟨_, _, same, letter, all⟩ := isWord
  obtain ⟨rfl, rfl⟩ := List.cons.inj (spelled.symm.trans same)
  rw [scan_word letter all stops, ← spelled, String.ofList_toList]

theorem scan_of_mark {c : Char} {rest : List Char} {sign : Mark} {more : Nat}
    (unquoted : c ∉ ['/', '\'', '[', '{']) (found : mark? c rest.head? = some (sign, more)) :
    scan c rest = .token (.mark sign) more := by
  simp only [List.mem_cons, List.not_mem_nil, or_false, not_or] at unquoted
  simp only [scan, unquoted, if_false, found]

/-- The longer one of two marks is scanned only where it stands. -/
theorem mark_of_text (sign : Mark) : ∃ c run, sign.text.toList = c :: run ∧
    c ∉ ['/', '\'', '[', '{'] ∧ ∀ next : List Char, (Token.mark sign).EndsBefore next →
      mark? c (run ++ next).head? = some (sign, run.length) := by
  have differs {c : Char} {next : List Char} (stops : ∀ d ∈ next.head?, (d != c) = true) :
      next.head? ≠ some c := fun same => bne_iff_ne.mp (stops c same) rfl
  cases sign with
  | colon =>
      refine ⟨':', [], rfl, by decide, fun next ends => ?_⟩
      exact congrArg some (if_neg (differs ends))
  | plus =>
      refine ⟨'+', [], rfl, by decide, fun next ends => ?_⟩
      exact congrArg some (if_neg (differs ends))
  | dot =>
      refine ⟨'.', [], rfl, by decide, fun next ends => ?_⟩
      exact congrArg some (if_neg (differs ends))
  | _ => exact ⟨_, _, rfl, by decide, fun _ _ => rfl⟩

/-- An action is scanned where its last brace closes it. -/
theorem scan_action {text : String} {run next : List Char} (spelled : text.toList = '{' :: run)
    (closes : blockLength 0 (run ++ next) = some run.length) :
    scan '{' (run ++ next) = .token (.action text) run.length := by
  have whole : String.ofList ('{' :: run) = text := by
    rw [← spelled, String.ofList_toList]
  simp only [scan, Char.reduceEq, if_false, if_true, closes, List.take_left]
  rw [whole]

theorem reach_append {delimiter : Char} {barred body : List Char}
    (closed : reach delimiter barred body = ⟨body.length, true⟩) (next : List Char) :
    reach delimiter barred (body ++ next) = ⟨body.length, true⟩ := by
  have found := reach_local closed next
  rwa [List.take_length] at found

/-- A token of its shape is scanned from its text if it stands and does not run into what
follows. -/
theorem scan_shaped {token : Token} {c : Char} {run next : List Char} (shaped : token.Shaped)
    (kept : token.isTrivia = false) (spelled : token.text.toList = c :: run)
    (ends : token.EndsBefore next) (stands : token.StandsBefore next) :
    scan c (run ++ next) = .token token run.length := by
  have whole : String.ofList (c :: run) = token.text := by
    rw [← spelled, String.ofList_toList]
  cases token with
  | keyword word =>
      have same : wordToken word.text = .keyword word := by
        simp only [wordToken, Keyword.ofText?_text]
      rw [← same]
      exact scan_of_isWord (isWord_of_keyword word) spelled ends
  | mark sign =>
      obtain ⟨_, _, same, unquoted, found⟩ := mark_of_text sign
      obtain ⟨rfl, rfl⟩ := List.cons.inj (spelled.symm.trans same)
      exact scan_of_mark unquoted (found next ends)
  | tokenName text | ruleName text =>
      obtain ⟨isWord, same⟩ := shaped
      rw [← same]
      exact scan_of_isWord isWord spelled ends
  | literal text =>
      obtain ⟨body, same, closed⟩ := shaped
      obtain ⟨rfl, rfl⟩ := List.cons.inj (spelled.symm.trans same)
      simp only [scan, Char.reduceEq, if_false, if_true, reach_append closed, List.take_left]
      rw [whole]
      rfl
  | charSet text =>
      obtain ⟨body, same, closed⟩ := shaped
      obtain ⟨rfl, rfl⟩ := List.cons.inj (spelled.symm.trans same)
      simp only [scan, Char.reduceEq, if_false, if_true, reach_append closed, List.take_left]
      rw [whole]
      rfl
  | action text =>
      obtain ⟨body, rest, same, -⟩ := shaped
      obtain ⟨rfl, rfl⟩ := List.cons.inj (spelled.symm.trans same)
      have closes := stands text rfl
      rw [same] at closes
      exact scan_action same closes
  | integer text =>
      obtain ⟨_, _, same, digit, all⟩ := shaped
      obtain ⟨rfl, rfl⟩ := List.cons.inj (spelled.symm.trans same)
      rw [scan_number digit all ends, whole]
      rfl
  | docComment | blockComment | lineComment | blanks | lineFeed => cases kept

theorem Token.Shaped.exists_cons {token : Token} (shaped : token.Shaped)
    (kept : token.isTrivia = false) : ∃ c run, token.text.toList = c :: run := by
  cases token with
  | keyword word =>
      obtain ⟨c, run, spelled, -⟩ := isWord_of_keyword word
      exact ⟨c, run, spelled⟩
  | mark sign =>
      obtain ⟨c, run, spelled, -⟩ := mark_of_text sign
      exact ⟨c, run, spelled⟩
  | tokenName text | ruleName text =>
      obtain ⟨⟨c, run, spelled, -⟩, -⟩ := shaped
      exact ⟨c, run, spelled⟩
  | literal text | charSet text =>
      obtain ⟨body, spelled, -⟩ := shaped
      exact ⟨_, body, spelled⟩
  | action text =>
      obtain ⟨body, _, spelled, -⟩ := shaped
      exact ⟨_, body, spelled⟩
  | integer text =>
      obtain ⟨c, run, spelled, -⟩ := shaped
      exact ⟨c, run, spelled⟩
  | docComment | blockComment | lineComment | blanks | lineFeed => cases kept

/-- What begins with a blank is scanned as trivia. -/
theorem not_blank_of_scan {token : Token} {c : Char} {rest : List Char} {more : Nat}
    (scanned : scan c rest = .token token more) (kept : token.isTrivia = false) :
    Text.isBlank c = false := by
  rw [Bool.eq_false_iff]
  intro blank
  obtain ⟨noLetter, noDigit⟩ := Text.not_word_of_blank blank
  rw [scan_of_no_sign (no_sign_of_blank blank), noLetter, noDigit, blank, if_neg Bool.false_ne_true,
    if_neg Bool.false_ne_true, if_pos rfl] at scanned
  split at scanned <;> cases scanned <;> cases kept

theorem lexemesFrom_token {c : Char} {rest : List Char} {token : Token} {more : Nat}
    (scanned : scan c rest = .token token more) (offset : Nat) (faults : Collector) :
    lexemesFrom offset faults (c :: rest) =
      (⟨token, .between offset (offset + byteLength (c :: rest.take more))⟩ ::
        (lexemesFrom (offset + byteLength (c :: rest.take more)) faults (rest.drop more)).1,
      (lexemesFrom (offset + byteLength (c :: rest.take more)) faults (rest.drop more)).2) := by
  rw [lexemesFrom]
  simp only [scanned]

/-- Behind any number of spaces, the text is scanned without a fault, into these tokens. -/
def Scans (text : List Char) (tokens : List Token) : Prop :=
  ∀ spaces offset faults, ∃ lexemes,
    lexemesFrom offset faults (List.replicate spaces ' ' ++ text) = (lexemes, faults) ∧
      tokensOf (significant lexemes) = tokens

namespace Scans

variable {text rest : List Char} {tokens : List Token}

/-- Spaces in front of what is no blank are one lexeme. -/
theorem lexemesFrom_spaces (notBlank : text.takeWhile (fun d => Text.isBlank d && d != '\n') = [])
    (others offset : Nat) (faults : Collector) : ∃ span start,
      lexemesFrom offset faults (List.replicate (others + 1) ' ' ++ text) =
        (⟨.blanks, span⟩ :: (lexemesFrom start faults text).1, (lexemesFrom start faults text).2) := by
  have run : (List.replicate others ' ' ++ text).takeWhile
      (fun d => Text.isBlank d && d != '\n') = List.replicate others ' ' := by
    rw [List.takeWhile_append_of_pos, notBlank, List.append_nil]
    intro d member
    rw [List.eq_of_mem_replicate member]
    decide
  have scanned : scan ' ' (List.replicate others ' ' ++ text) = .token .blanks others := by
    have all := scan_of_no_sign (c := ' ') (by decide) (List.replicate others ' ' ++ text)
    rw [run, List.length_replicate] at all
    exact all
  have dropped : (List.replicate others ' ' ++ text).drop others = text := by
    rw [List.drop_left' List.length_replicate]
  rw [List.replicate_succ, List.cons_append, lexemesFrom_token scanned, dropped]
  exact ⟨_, _, rfl⟩

theorem of_start (notBlank : text.takeWhile (fun d => Text.isBlank d && d != '\n') = [])
    (scans : ∀ offset faults, ∃ lexemes, lexemesFrom offset faults text = (lexemes, faults) ∧
      tokensOf (significant lexemes) = tokens) : Scans text tokens := by
  intro spaces offset faults
  cases spaces with
  | zero => exact scans offset faults
  | succ others =>
      obtain ⟨span, start, begun⟩ := lexemesFrom_spaces notBlank others offset faults
      obtain ⟨lexemes, later, same⟩ := scans start faults
      rw [begun, later]
      exact ⟨_, rfl, same⟩

theorem nil : Scans [] [] := by
  refine of_start rfl fun offset faults => ⟨[], ?_, rfl⟩
  rw [lexemesFrom]

theorem space (scans : Scans text tokens) : Scans (' ' :: text) tokens := by
  intro spaces offset faults
  have more := scans (spaces + 1) offset faults
  rwa [List.replicate_succ', List.append_assoc] at more

theorem lineFeed (scans : Scans text tokens) : Scans ('\n' :: text) tokens := by
  refine of_start rfl fun offset faults => ?_
  obtain ⟨lexemes, scanned, same⟩ := scans 0 (offset + byteLength ['\n']) faults
  have feed : scan '\n' text = .token .lineFeed 0 := scan_of_no_sign (by decide) text
  rw [lexemesFrom_token feed, List.take_zero, List.drop_zero]
  simp only [List.replicate_zero, List.nil_append] at scanned
  rw [scanned]
  exact ⟨_, rfl, same⟩

/-- What is scanned as a token stands in front of what is scanned behind it. -/
theorem scanned {token : Token} {c : Char} {run : List Char} (kept : token.isTrivia = false)
    (notBlank : Text.isBlank c = false)
    (scanned : scan c (run ++ rest) = .token token run.length) (scans : Scans rest tokens) :
    Scans (c :: run ++ rest) (token :: tokens) := by
  rw [List.cons_append]
  refine of_start (by rw [List.takeWhile_cons, notBlank]; rfl) fun offset faults => ?_
  obtain ⟨lexemes, later, same⟩ := scans 0 (offset + byteLength (c :: run)) faults
  rw [List.replicate_zero, List.nil_append] at later
  rw [lexemesFrom_token scanned, List.take_left, List.drop_left, later]
  refine ⟨_, rfl, ?_⟩
  simp only [tokensOf, significant, List.filter_cons, kept, Bool.not_false, if_true,
    List.map_cons]
  exact congrArg (token :: ·) same

end Scans

end Railroad
