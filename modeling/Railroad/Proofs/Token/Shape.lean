import Railroad.Proofs.Token.Kinds

/-!
# The shape of scanned tokens

What is known of the text of a token because it has been scanned.  For all tokens but actions the
shape is enough for the text to be scanned as the same token again, wherever it stands; the
closing brace of an action may depend on what stands behind it.
-/

namespace Railroad

open Scan

/-- A word begins with a letter; letters, numbers and underscores follow. -/
def IsWord (text : String) : Prop :=
  ∃ c run, text.toList = c :: run ∧ Text.isAlphabetic c = true ∧
    ∀ d ∈ run, isWordCharacter d = true

def Token.Shaped : Token → Prop
  | literal text => ∃ body, text.toList = '\'' :: body ∧
      reach '\'' ['\n', '\r'] body = ⟨body.length, true⟩
  | charSet text => ∃ body, text.toList = '[' :: body ∧ reach ']' [] body = ⟨body.length, true⟩
  | action text => ∃ body rest, text.toList = '{' :: body ∧
      blockLength 0 (body ++ rest) = some body.length
  | integer text => ∃ c run, text.toList = c :: run ∧ c.isDigit = true ∧
      ∀ d ∈ run, d.isDigit = true
  | tokenName text => IsWord text ∧ wordToken text = .tokenName text
  | ruleName text => IsWord text ∧ wordToken text = .ruleName text
  | _ => True

namespace Scan

/-- What stands behind the closing delimiter does not matter. -/
theorem reach_local {delimiter : Char} {barred text : List Char} {length : Nat}
    (closed : reach delimiter barred text = ⟨length, true⟩) (rest : List Char) :
    reach delimiter barred (text.take length ++ rest) = ⟨length, true⟩ := by
  fun_induction reach delimiter barred text generalizing length with
  | case1 => cases closed
  | case2 => cases closed
  | case3 escaped tail ih =>
      cases reached : reach delimiter barred tail with
      | mk inner last =>
          rw [reached] at closed
          cases closed
          simp only [List.take_succ_cons, List.cons_append, reach, if_true, ih reached]
          rfl
  | case4 rest notEscape =>
      cases closed
      rw [List.take_succ_cons, List.cons_append, reach.eq_def]
      simp only [if_neg notEscape, if_true]
  | case5 c rest notEscape notDelimiter isBarred => cases closed
  | case6 c tail notEscape notDelimiter notBarred ih =>
      cases reached : reach delimiter barred tail with
      | mk inner last =>
          rw [reached] at closed
          cases closed
          rw [List.take_succ_cons, List.cons_append, reach.eq_def]
          simp only [if_neg notEscape, if_neg notDelimiter, if_neg notBarred, ih reached]
          rfl

theorem blockLength_le {depth length : Nat} {text : List Char}
    (found : blockLength depth text = some length) : length ≤ text.length := by
  fun_induction blockLength depth text generalizing length with
  | case1 => cases found
  | case2 => cases found; exact Nat.le_add_left 1 _
  | case3 rest outer ih =>
      obtain ⟨inner, foundInner, rfl⟩ := Option.map_eq_some_iff.mp found
      exact Nat.succ_le_succ (ih foundInner)
  | case4 => cases found
  | case5 depth c rest notClosing more piece ih =>
      obtain ⟨inner, foundInner, rfl⟩ := Option.map_eq_some_iff.mp found
      have shorter := ih foundInner
      have some : rest.drop more ≠ [] := by
        intro none
        rw [none, blockLength] at foundInner
        cases foundInner
      have positive := List.length_pos_iff.mpr some
      rw [List.length_drop] at shorter positive
      rw [List.length_cons]
      omega

/-- A comment reaches to the end of its closing mark. -/
theorem closeComment_split {text : List Char} {length : Nat}
    (closed : closeComment text = some length) :
    ∃ body, text.take length = body ++ "*/".toList ∧ body.length + 2 = length := by
  fun_induction closeComment text generalizing length with
  | case1 => cases closed
  | case2 => cases closed; exact ⟨[], rfl, rfl⟩
  | case3 c rest _ ih =>
      obtain ⟨inner, found, rfl⟩ := Option.map_eq_some_iff.mp closed
      obtain ⟨body, split, size⟩ := ih found
      exact ⟨c :: body, by rw [List.take_succ_cons, split]; rfl, by rw [← size]; rfl⟩

theorem shape_of_reach {delimiter : Char} {barred text : List Char} {length : Nat}
    (closed : reach delimiter barred text = ⟨length, true⟩) :
    reach delimiter barred (text.take length) = ⟨(text.take length).length, true⟩ := by
  have short := reach_length_le delimiter barred text
  have again := reach_local closed []
  rw [closed] at short
  rwa [List.length_take_of_le short, ← List.append_nil (text.take length)]

end Scan

theorem Scan.wordToken_text (word : String) : (wordToken word).text = word := by
  unfold wordToken
  split
  next keyword found => exact Keyword.text_eq_of_ofText? found
  next => split <;> rfl

theorem Scan.wordToken_ne_mark (word : String) (sign : Mark) : wordToken word ≠ .mark sign := by
  unfold wordToken
  split
  · exact Token.noConfusion
  · split <;> exact Token.noConfusion

theorem Token.Shaped.of_word {word : String} (isWord : IsWord word) : (wordToken word).Shaped := by
  cases found : Keyword.ofText? word with
  | some keyword =>
      have same : wordToken word = .keyword keyword := by simp only [wordToken, found]
      rw [same]
      trivial
  | none =>
      by_cases upper : Text.startsUppercase word = true
      · have same : wordToken word = .tokenName word := by simp only [wordToken, found, upper, if_true]
        rw [same]
        exact ⟨isWord, same⟩
      · have same : wordToken word = .ruleName word := by simp only [wordToken, found, if_neg upper]
        rw [same]
        exact ⟨isWord, same⟩

/-- Whatever is scanned has the shape of its kind. -/
theorem shaped_of_scan {c : Char} {rest : List Char} {token : Token} {more : Nat}
    (scanned : scan c rest = .token token more) : token.Shaped := by
  cases tokenAt_of_scan scanned with
  | lineComment | blockComment | docComment | mark | lineFeed | blanks => trivial
  | literal closed | charSet closed => exact ⟨_, String.toList_ofList, shape_of_reach closed⟩
  | action closed =>
      refine ⟨rest.take more, rest.drop more, String.toList_ofList, ?_⟩
      rw [List.take_append_drop, List.length_take_of_le (blockLength_le closed), closed]
  | word letter =>
      exact .of_word ⟨c, _, String.toList_ofList, letter, List.all_eq_true.mp List.all_takeWhile⟩
  | number digit =>
      exact ⟨c, _, String.toList_ofList, digit, List.all_eq_true.mp List.all_takeWhile⟩

theorem lexemesFrom_shaped (offset : Nat) (faults : Collector) (text : List Char) :
    ∀ lexeme ∈ (lexemesFrom offset faults text).1, lexeme.token.Shaped := by
  fun_induction lexemesFrom offset faults text with
  | case1 => exact fun lexeme member => absurd member List.not_mem_nil
  | case2 offset faults c rest token more scanned stop tail ih =>
      intro lexeme member
      rcases List.mem_cons.mp member with rfl | later
      · exact shaped_of_scan scanned
      · exact ih lexeme later
  | case3 => exact fun lexeme member => absurd member List.not_mem_nil
  | case4 offset faults c rest code more scanned stop found goesOn passed ih => exact ih

theorem tokenize_shaped {source : String} {lexemes : List Lexeme}
    (scanned : tokenize source = .ok lexemes) : ∀ lexeme ∈ lexemes, lexeme.token.Shaped := by
  obtain ⟨-, rfl⟩ := clean_of_tokenize scanned
  exact lexemesFrom_shaped 0 _ source.toList

/-- Letters are no digits, so no word begins like a number. -/
theorem not_digit_of_letter {c : Char} (letter : Text.isAlphabetic c = true) :
    c.isDigit = false := by
  rw [Bool.eq_false_iff]
  intro digit
  simp only [Char.isDigit, Bool.and_eq_true, decide_eq_true_eq] at digit
  have small : c.toNat ≤ 57 := UInt32.le_iff_toNat_le.mp digit.2
  have low : c.toNat < 128 := by omega
  rw [Text.isAlphabetic, if_pos low] at letter
  rcases Bool.or_eq_true_iff.mp letter with upper | lower
  · have large : 65 ≤ c.toNat := UInt32.le_iff_toNat_le.mp (of_decide_eq_true upper).1
    omega
  · have large : 97 ≤ c.toNat :=
      UInt32.le_iff_toNat_le.mp (of_decide_eq_true (Bool.and_eq_true_iff.mp lower).1)
    omega

end Railroad
