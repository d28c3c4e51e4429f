import Railroad.Proofs.Printing.Rescan
import Railroad.Proofs.Token.Kinds

/-!
# Tokens in their place

Apart from blocks, a token is seen from its own characters and the one behind them.
-/

namespace Railroad

open Scan

/-- The kinds of tokens by the text that they begin. -/
theorem scan_iff {c : Char} {rest : List Char} {token : Token} {more : Nat} :
    scan c rest = .token token more ↔ TokenAt c rest token more := by
  refine ⟨tokenAt_of_scan, fun begins => ?_⟩
  cases begins with
  | lineComment body => rfl
  | @blockComment body length closed plain =>
      have block : scanBlockComment 1 body = .token .blockComment (1 + length) := by
        rw [scanBlockComment, closed]
      refine Eq.trans ?_ block
      cases body with
      | nil => cases closed
      | cons d later =>
          by_cases star : d = '*'
          · subst star
            exact if_pos (plain rfl)
          · refine scanComment.eq_3 _ fun rest same => ?_
            exact star (List.cons.inj same).1
  | @docComment body length closed goesOn =>
      have doc : scanDocComment body =
          .token (.docComment (String.ofList (body.take (length - 2)))) (2 + length) := by
        rw [scanDocComment, closed]
      exact (if_neg goesOn).trans doc
  | literal closed => simp [scan, closed]
  | charSet closed => simp [scan, closed]
  | action closed => simp [scan, closed]
  | mark unquoted found => exact scan_of_mark unquoted found
  | word letter rest => exact (scan_of_no_sign (no_sign_of_letter letter) rest).trans (if_pos letter)
  | number digit rest =>
      have noLetter : ¬Text.isAlphabetic c = true := by
        intro letter
        rw [not_digit_of_letter letter] at digit
        cases digit
      rw [scan_of_no_sign (no_sign_of_digit digit), if_neg noLetter, if_pos digit]
  | lineFeed rest => exact scan_of_no_sign (by decide) rest
  | blanks blank notFeed rest =>
      obtain ⟨noLetter, noDigit⟩ := Text.not_word_of_blank blank
      rw [scan_of_no_sign (no_sign_of_blank blank), noLetter, noDigit, if_neg Bool.false_ne_true,
        if_neg Bool.false_ne_true, if_neg notFeed, if_pos blank]

namespace Scan

theorem head?_inserted {rest next : List Char} (head : rest.head? = next.head?)
    (run : List Char) : (run ++ rest).head? = (run ++ next).head? := by
  cases run with
  | nil => exact head
  | cons c tail => rfl

theorem tail_of_append_eq_cons {c : Char} {run rest text : List Char}
    (whole : run ++ rest = c :: text) (nonempty : 0 < run.length) :
    ∃ tail, run = c :: tail ∧ text = tail ++ rest := by
  rcases List.append_eq_cons_iff.mp whole with ⟨rfl, -⟩ | found
  · exact absurd nonempty (Nat.lt_irrefl 0)
  · exact found

theorem exists_two_of_length {text : List Char} (long : 2 ≤ text.length) :
    ∃ c d rest, text = c :: d :: rest := by
  rcases text with _ | ⟨c, _ | ⟨d, rest⟩⟩
  · exact absurd long (by decide : ¬2 ≤ 0)
  · exact absurd long (by decide : ¬2 ≤ 1)
  · exact ⟨c, d, rest, rfl⟩

/-- A run ends where it did if the first character behind it is the same. -/
theorem takeWhile_again {meets : Char → Bool} {run rest next : List Char}
    (whole : ((run ++ rest).takeWhile meets).length = run.length) (head : rest.head? = next.head?) :
    (run ++ next).takeWhile meets = (run ++ rest).takeWhile meets := by
  induction run with
  | nil =>
      rw [List.nil_append, List.nil_append]
      cases rest with
      | nil => rw [List.head?_eq_none_iff.mp head.symm]
      | cons c others =>
          obtain ⟨later, rfl⟩ := List.head?_eq_some_iff.mp head.symm
          rw [List.takeWhile_cons, List.takeWhile_cons]
          split
          next meet =>
            rw [List.nil_append, List.takeWhile_cons, if_pos meet] at whole
            cases whole
          next => rfl
  | cons c tail ih =>
      rw [List.cons_append, List.takeWhile_cons] at whole
      rw [List.cons_append, List.cons_append, List.takeWhile_cons, List.takeWhile_cons]
      split
      next meet =>
        rw [if_pos meet] at whole
        rw [ih (Nat.succ.inj whole)]
      next => rfl

theorem closeComment_le {text : List Char} {length : Nat}
    (closed : closeComment text = some length) : length ≤ text.length := by
  obtain ⟨body, taken, size⟩ := closeComment_split closed
  have whole := congrArg List.length taken
  rw [List.length_take, List.length_append] at whole
  have two : "*/".toList.length = 2 := rfl
  omega

end Scan

namespace TokenAt

variable {c : Char} {run rest next : List Char} {token : Token} {more : Nat}

theorem more_le (begins : TokenAt c rest token more) : more ≤ rest.length := by
  have quoted {delimiter : Char} {barred : List Char}
      (closed : reach delimiter barred rest = ⟨more, true⟩) : more ≤ rest.length := by
    have short := reach_length_le delimiter barred rest
    rwa [closed] at short
  cases begins with
  | lineComment body =>
      rw [List.length_cons, Nat.add_comm]
      exact Nat.succ_le_succ (List.takeWhile_prefix _).length_le
  | blockComment closed _ =>
      rw [List.length_cons, Nat.add_comm]
      exact Nat.succ_le_succ (closeComment_le closed)
  | docComment closed _ =>
      rw [List.length_cons, List.length_cons, Nat.add_comm]
      exact Nat.add_le_add_right (closeComment_le closed) 2
  | literal closed | charSet closed => exact quoted closed
  | action closed => exact blockLength_le closed
  | mark _ found =>
      obtain ⟨run, later, rfl, rfl, -⟩ := mark?_split found
      rw [List.length_append]
      exact Nat.le_add_right ..
  | word _ rest | number _ rest | blanks _ _ rest => exact (List.takeWhile_prefix _).length_le
  | lineFeed => exact Nat.zero_le _

/-- A token begins a text by its characters and the one behind them, and a block if it is closed
where it was. -/
theorem again (begins : TokenAt c (run ++ rest) token run.length) (head : rest.head? = next.head?)
    (closes : blockLength 0 (run ++ rest) = some run.length →
      blockLength 0 (run ++ next) = some run.length) : TokenAt c (run ++ next) token run.length := by
  generalize whole : run ++ rest = text at begins closes
  generalize size : run.length = more at begins closes
  cases begins with
  | lineComment body =>
      obtain ⟨tail, rfl, rfl⟩ := tail_of_append_eq_cons whole
        (size ▸ Nat.lt_add_right _ Nat.one_pos)
      rw [List.length_cons, Nat.add_comm] at size
      rw [← takeWhile_again (Nat.add_left_cancel size).symm head]
      exact .lineComment _
  | blockComment closed plain =>
      obtain ⟨tail, rfl, rfl⟩ := tail_of_append_eq_cons whole
        (size ▸ Nat.lt_add_right _ Nat.one_pos)
      rw [List.length_cons, Nat.add_comm] at size
      obtain rfl := Nat.add_left_cancel size
      refine .blockComment (closeComment_local closed (Nat.le_refl _) next) ?_
      obtain ⟨d, e, others, rfl⟩ := exists_two_of_length (closeComment_pos closed)
      exact plain
  | docComment closed goesOn =>
      obtain ⟨behind, rfl, same⟩ := tail_of_append_eq_cons whole
        (size ▸ Nat.lt_add_right _ Nat.two_pos)
      obtain ⟨tail, rfl, rfl⟩ := tail_of_append_eq_cons same.symm (by
        rw [List.length_cons] at size
        omega)
      obtain rfl : tail.length = _ := Nat.add_left_cancel ((Nat.add_comm 2 _).trans size)
      have kept : (tail ++ next).take (tail.length - 2) = (tail ++ rest).take (tail.length - 2) := by
        rw [List.take_append_of_le_length (Nat.sub_le ..),
          List.take_append_of_le_length (Nat.sub_le ..)]
      rw [← kept]
      refine .docComment (closeComment_local closed (Nat.le_refl _) next) ?_
      obtain ⟨d, e, others, rfl⟩ := exists_two_of_length (closeComment_pos closed)
      exact goesOn
  | literal closed =>
      subst whole size
      have reached := reach_local closed next
      rw [List.take_left] at reached ⊢
      have found := TokenAt.literal reached
      rwa [List.take_left] at found
  | charSet closed =>
      subst whole size
      have reached := reach_local closed next
      rw [List.take_left] at reached ⊢
      have found := TokenAt.charSet reached
      rwa [List.take_left] at found
  | action closed =>
      subst whole size
      have found := TokenAt.action (closes closed)
      rwa [List.take_left] at found ⊢
  | mark unquoted found =>
      subst whole
      rw [head?_inserted head] at found
      exact .mark unquoted found
  | word letter _ =>
      subst whole
      have kept := takeWhile_again size.symm head
      rw [← kept]
      exact .word letter _
  | number digit _ =>
      subst whole
      rw [← takeWhile_again size.symm head]
      exact .number digit _
  | lineFeed => exact .lineFeed _
  | blanks blank notFeed _ =>
      subst whole
      rw [← takeWhile_again size.symm head]
      exact .blanks blank notFeed _

end TokenAt

end Railroad
