import Railroad.Proofs.Grammar.Form

/-!
# Beginnings of words

Every form has a word.  So what begins like a word of the first part of a form can be finished as
a word of the whole form, and what an input has in common with a form is never a dead end.
-/

namespace Railroad

/-- Whether a form has a word, given the notions that are known to have one. -/
def Form.inhabited (known : Notion → Bool) : Form → Bool
  | empty | terminal _ | optional _ | many _ => true
  | notion part => known part
  | both first second => first.inhabited known && second.inhabited known
  | either first second => first.inhabited known || second.inhabited known

/-- Notions that have a word with only so many notions inside one another. -/
def Notion.inhabited : Nat → Notion → Bool
  | 0, _ => false
  | depth + 1, notion => notion.form.inhabited (Notion.inhabited depth)

theorem Form.exists_word_of_inhabited {known : Notion → Bool}
    (sound : ∀ notion, known notion = true → ∃ word, Derives (.notion notion) word) (form : Form)
    (computed : form.inhabited known = true) : ∃ word, Derives form word := by
  induction form with
  | empty => exact ⟨_, .empty⟩
  | terminal only => exact ⟨_, .terminal only⟩
  | notion part => exact sound part computed
  | both first second firstIH secondIH =>
      rw [inhabited, Bool.and_eq_true] at computed
      obtain ⟨front, head⟩ := firstIH computed.1
      obtain ⟨back, tail⟩ := secondIH computed.2
      exact ⟨_, .both head tail⟩
  | either first second firstIH secondIH =>
      rw [inhabited, Bool.or_eq_true] at computed
      rcases computed with here | there
      · exact (firstIH here).imp fun _ => Derives.left
      · exact (secondIH there).imp fun _ => Derives.right
  | optional form => exact ⟨_, .absent⟩
  | many form => exact ⟨_, .done⟩

theorem Notion.exists_word_of_inhabited (depth : Nat) (notion : Notion)
    (computed : notion.inhabited depth = true) : ∃ word, Derives (.notion notion) word := by
  induction depth generalizing notion with
  | zero => cases computed
  | succ depth ih =>
      exact (notion.form.exists_word_of_inhabited ih computed).imp fun _ => Derives.notion

theorem Form.exists_word (form : Form) : ∃ word, Derives form word := by
  have known (notion : Notion) : notion.inhabited 4 = true := by cases notion <;> rfl
  have whole : form.inhabited (Notion.inhabited 4) = true := by
    induction form with
    | empty | terminal _ | optional _ _ | many _ _ => rfl
    | notion part => exact known part
    | both first second firstIH secondIH => rw [inhabited, firstIH, secondIH, Bool.and_self]
    | either first second firstIH secondIH => rw [inhabited, firstIH, Bool.true_or]
  exact form.exists_word_of_inhabited (Notion.exists_word_of_inhabited 4) whole

/-- Some word of the form begins like this. -/
def Commences (form : Form) (word : List Terminal) : Prop := ∃ more, Derives form (word ++ more)

namespace Commences

variable {form first second : Form} {word front back : List Terminal}

theorem nil (form : Form) : Commences form [] := form.exists_word

theorem congr (begins : Commences form word)
    (same : ∀ word, Derives form word → Derives second word) : Commences second word :=
  begins.imp fun _ => same _

theorem both_left (begins : Commences first word) (second : Form) :
    Commences (.both first second) word := by
  obtain ⟨more, head⟩ := begins
  obtain ⟨last, tail⟩ := second.exists_word
  refine ⟨more ++ last, ?_⟩
  rw [← List.append_assoc]
  exact .both head tail

theorem both_right (head : Derives first front) (begins : Commences second back) :
    Commences (.both first second) (front ++ back) := by
  obtain ⟨more, tail⟩ := begins
  refine ⟨more, ?_⟩
  rw [List.append_assoc]
  exact .both head tail

theorem item (begins : Commences form word) : Commences (.many form) word := by
  obtain ⟨more, derives⟩ := begins
  refine ⟨more, ?_⟩
  rw [← List.append_nil (word ++ more)]
  exact .again derives .done

theorem again (head : Derives form front) (begins : Commences (.many form) back) :
    Commences (.many form) (front ++ back) := by
  obtain ⟨more, tail⟩ := begins
  refine ⟨more, ?_⟩
  rw [List.append_assoc]
  exact .again head tail

end Commences

end Railroad
