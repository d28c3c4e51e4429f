/-!
# Finding and replacing

Every occurrence of a mark in a text is replaced.  A mark that has been found is taken off the text
in front of it, and the search goes on behind it.
-/

namespace Railroad.Text

theorem length_of_isPrefixOf? {mark text rest : List Char}
    (found : mark.isPrefixOf? text = some rest) : rest.length ≤ text.length := by
  induction mark generalizing text with
  | nil => exact Nat.le_of_eq (congrArg List.length (Option.some.inj found).symm)
  | cons m mark ih =>
      cases text with
      | nil => cases found
      | cons c text =>
          have step : (if m == c then mark.isPrefixOf? text else none) = some rest := found
          split at step
          next => exact Nat.le_succ_of_le (ih step)
          next => cases step

/--
Puts `value` in the place of every occurrence of `first :: mark`, from left to right.  What was
put in is not searched again.
-/
def replaceAll (first : Char) (mark value : List Char) : List Char → List Char
  | [] => []
  | c :: text =>
      if c = first then
        match _ : mark.isPrefixOf? text with
        | some rest => value ++ replaceAll first mark value rest
        | none => c :: replaceAll first mark value text
      else c :: replaceAll first mark value text
termination_by text => text.length
decreasing_by
  · exact Nat.lt_succ_of_le (length_of_isPrefixOf? ‹_›)
  · exact Nat.lt_succ_self _
  · exact Nat.lt_succ_self _

end Railroad.Text
