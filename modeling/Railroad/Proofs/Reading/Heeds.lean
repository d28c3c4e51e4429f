import Mathlib.Computability.Language
import Mathlib.Order.CompletePartialOrder
import Railroad.Proofs.Reading.KeepsTo

/-!
# Readers and the end of their input

A reader that does not get to the end of its input does the same when more lexemes follow.  What
can go wrong is that it has seen the end, has taken that for a miss, and goes back to where it
began.  The words on which this happens are told by two languages.  A reader is broken off by a
word if it goes back from the end of it.  It gives up on a word if it misses at the end, so that
whatever tries it will go back.  A reader that is given up only on the empty word can be tried
without harm.
-/

namespace Railroad

variable {α β : Type}

/-- The same stop in front of more lexemes. -/
def Setback.extend (more : List Lexeme) (setback : Setback) : Setback :=
  ⟨setback.expected, setback.opened.map (· + more.length), setback.rest ++ more⟩

/-- The same outcome in front of more lexemes. -/
def Outcome.extend (more : List Lexeme) : Outcome α → Outcome α
  | done value rest => .done value (rest ++ more)
  | missed setback => .missed (setback.extend more)
  | failed setback => .failed (setback.extend more)

/-- The language of a form. -/
def Form.words (form : Form) : Language Terminal := {word | Derives form word}

/-- The words that end with a word of one of the forms. -/
def Form.endings (forms : List Form) : Language Terminal :=
  {word | ∃ form ∈ forms, ∃ front back, word = front ++ back ∧ Derives form back}

namespace Form

@[simp]
theorem words_empty : empty.words = 1 := Set.ext fun _ => Derives.empty_iff

@[simp]
theorem words_sequence_nil : (sequence []).words = 1 := words_empty

theorem mem_words_mul {first second : Form} {word : List Terminal} :
    word ∈ first.words * second.words ↔
      ∃ front back, word = front ++ back ∧ Derives first front ∧ Derives second back := by
  rw [Language.mem_mul]
  constructor
  · rintro ⟨front, head, back, tail, rfl⟩
    exact ⟨front, back, rfl, head, tail⟩
  · rintro ⟨front, back, rfl, head, tail⟩
    exact ⟨front, head, back, tail, rfl⟩

@[simp]
theorem words_both (first second : Form) : (both first second).words = first.words * second.words :=
  Language.ext fun _ => Derives.both_iff.trans mem_words_mul.symm

@[simp]
theorem words_sequence_cons (form : Form) (forms : List Form) :
    (sequence (form :: forms)).words = form.words * (sequence forms).words :=
  words_both form (sequence forms)

@[simp]
theorem words_either (first second : Form) :
    (either first second).words = first.words + second.words :=
  Set.ext fun _ => Derives.either_iff

@[simp]
theorem words_choice_nil (form : Form) : (choice form []).words = form.words := rfl

@[simp]
theorem words_choice_cons (form other : Form) (others : List Form) :
    (choice form (other :: others)).words = form.words + (choice other others).words :=
  words_either form (choice other others)

@[simp]
theorem words_optional (form : Form) : (optional form).words = 1 + form.words :=
  Set.ext fun _ => Derives.optional_iff

theorem words_many (form : Form) : (many form).words = 1 + form.words * (many form).words :=
  Language.ext fun _ => Derives.many_iff.trans (or_congr_right mem_words_mul.symm)

theorem one_le_words_many (form : Form) : 1 ≤ (many form).words :=
  le_self_add.trans_eq (words_many form).symm

theorem words_mul_many_le (form : Form) : form.words * (many form).words ≤ (many form).words :=
  le_add_self.trans_eq (words_many form).symm

theorem words_le_endings {form : Form} {forms : List Form} (listed : form ∈ forms) :
    form.words ≤ endings forms :=
  fun word derives => ⟨form, listed, [], word, rfl, derives⟩

/-- Endings do not depend on how a word begins. -/
theorem mul_endings_le (forms : List Form) (front : Language Terminal) :
    front * endings forms ≤ endings forms := by
  rintro _ ⟨first, -, _, ⟨form, listed, middle, last, rfl, derives⟩, rfl⟩
  exact ⟨form, listed, first ++ middle, last, (List.append_assoc ..).symm, derives⟩

theorem mul_endings_add_le (forms : List Form) (front back : Language Terminal) :
    front * (endings forms + back) ≤ endings forms + front * back := by
  rw [mul_add]
  exact add_le_add_left (mul_endings_le forms front) _

end Form

namespace Reader

/-- A reader that has nothing to call. -/
def missing : Reader α := fun lexemes => .missed ⟨[], none, lexemes⟩

/-- The reader on input that is shorter than `size`; on any other input there is no reading. -/
def below (size : Nat) (reader : Reader α) : Reader α := fun lexemes =>
  if lexemes.length < size then reader lexemes else missing lexemes

theorem recursive_eq (step : Reader α → Reader α) (lexemes : List Lexeme) :
    recursive step lexemes = step (below lexemes.length (recursive step)) lexemes := by
  rw [recursive]
  rfl

/--
What one round keeps of the reader that it calls holds of the whole recursion.  It may be a
property of two readings, one of them in front of `more`; for each input it may be shown of other
readers that do the same there.
-/
theorem recursive_induction (more : List Lexeme) {step : Reader α → Reader α}
    {motive : Reader α → Reader α → Prop}
    (each : ∀ reader longer, (∀ lexemes, ∃ same sameLonger, motive same sameLonger ∧
      reader lexemes = same lexemes ∧
        longer (lexemes ++ more) = sameLonger (lexemes ++ more)) → motive reader longer)
    (none : motive missing missing)
    (keeps : ∀ inner innerLonger, motive inner innerLonger →
      motive (step inner) (step innerLonger)) :
    motive (recursive step) (recursive step) := by
  have longerEq (lexemes : List Lexeme) : recursive step (lexemes ++ more) =
      step (below (lexemes.length + more.length) (recursive step)) (lexemes ++ more) := by
    rw [recursive_eq, List.length_append]
  -- shorter inputs are read in both cases, when the input is and when what follows is added
  have bounded (size : Nat) : motive (below size (recursive step))
      (below (size + more.length) (recursive step)) := by
    induction size using Nat.strongRecOn with
    | ind size ih =>
        refine each _ _ fun lexemes => ?_
        have same : (lexemes ++ more).length < size + more.length ↔ lexemes.length < size := by
          rw [List.length_append, Nat.add_lt_add_iff_right]
        by_cases shorter : lexemes.length < size
        · exact ⟨_, _, keeps _ _ (ih lexemes.length shorter),
            (if_pos shorter).trans (recursive_eq step lexemes),
            (if_pos (same.mpr shorter)).trans (longerEq lexemes)⟩
        · exact ⟨_, _, none, if_neg shorter, if_neg (mt same.mp shorter)⟩
  exact each _ _ fun lexemes =>
    ⟨_, _, keeps _ _ (bounded lexemes.length), recursive_eq step lexemes, longerEq lexemes⟩

/-! ## Heeding the end of the input -/

/--
Where `reader` does not get to the end of its input, `longer` does the same in front of `more`,
unless the input is a broken one.  A miss at the end of an input is among the given ones.
-/
structure Heeds (more : List Lexeme) (reader longer : Reader α) (form : Form)
    (broken given : Language Terminal) : Prop extends KeepsTo reader form where
  heeds : ∀ lexemes, longer (lexemes ++ more) = (reader lexemes).extend more ∨
    (reader lexemes).rest = [] ∨ terminals lexemes ∈ broken
  gives : ∀ ⦃lexemes setback⦄, reader lexemes = .missed setback → setback.rest = [] →
    terminals lexemes ∈ given

namespace Heeds

variable {more : List Lexeme} {reader longer : Reader α} {other otherLonger : Reader α}
  {form second : Form} {broken given brokenToo givenToo : Language Terminal}

/-- What is known of an input once its outcome is. -/
theorem at_outcome (heeds : Heeds more reader longer form broken given) {lexemes : List Lexeme}
    {outcome : Outcome α} (read : reader lexemes = outcome) :
    longer (lexemes ++ more) = outcome.extend more ∨ outcome.rest = [] ∨
      terminals lexemes ∈ broken :=
  read ▸ heeds.heeds lexemes

/-- The words that break off behind what has been read, with what has been read in front of them. -/
theorem mem_mul (heeds : Heeds more reader longer form broken given) {lexemes rest : List Lexeme}
    {value : α} (read : reader lexemes = .done value rest) (behind : terminals rest ∈ brokenToo) :
    terminals lexemes ∈ form.words * brokenToo := by
  obtain ⟨taken, rfl, derives⟩ := heeds.sound read
  rw [terminals_append]
  exact Language.append_mem_mul derives behind

theorem mono (heeds : Heeds more reader longer form broken given) (wider : broken ≤ brokenToo)
    (widerToo : given ≤ givenToo) : Heeds more reader longer form brokenToo givenToo where
  toKeepsTo := heeds.toKeepsTo
  heeds lexemes := (heeds.heeds lexemes).imp_right (Or.imp_right fun member => wider member)
  gives _ _ missed atEnd := widerToo (heeds.gives missed atEnd)

theorem widenTo (heeds : Heeds more reader longer form broken given)
    (brokenToo : Language Terminal) (wider : broken ≤ brokenToo) :
    Heeds more reader longer form brokenToo given :=
  heeds.mono wider le_rfl

/-- A reader that is never broken off. -/
theorem widen (heeds : Heeds more reader longer form 0 given) :
    Heeds more reader longer form broken given :=
  heeds.mono bot_le le_rfl

theorem congr (heeds : Heeds more reader longer form broken given)
    (same : ∀ word, Derives form word → Derives second word) :
    Heeds more reader longer second broken given where
  toKeepsTo := heeds.toKeepsTo.congr same
  heeds := heeds.heeds
  gives := heeds.gives

theorem notion {part : Notion} (heeds : Heeds more reader longer part.form broken given) :
    Heeds more reader longer (.notion part) broken given :=
  heeds.congr fun _ => .notion

theorem single (heeds : Heeds more reader longer form broken given) :
    Heeds more reader longer (.sequence [form]) broken given :=
  heeds.congr fun _ => Derives.sequence_singleton_iff.mpr

theorem succeed (value : α) :
    Heeds more (Reader.succeed value) (Reader.succeed value) .empty 0 0 where
  toKeepsTo := .succeed value
  heeds _ := Or.inl rfl
  gives _ _ missed := nomatch missed

/-- A reader of one lexeme misses at the end only where nothing is left. -/
theorem accept {expectation : Expectation} {select : Lexeme → Option α}
    (sound : Sound (Reader.accept expectation select) form) :
    Heeds more (Reader.accept expectation select) (Reader.accept expectation select) form 0 1 where
  toKeepsTo := .accept sound
  heeds lexemes := by
    cases lexemes with
    | nil => exact Or.inr (Or.inl rfl)
    | cons lexeme rest =>
        refine Or.inl ?_
        simp only [List.cons_append, Reader.accept]
        split <;> rfl
  gives lexemes setback missed atEnd := by
    cases lexemes with
    | nil => rfl
    | cons lexeme rest =>
        simp only [Reader.accept] at missed
        split at missed
        · cases missed
        · cases missed; cases atEnd

theorem andThen {next nextLonger : α → Reader β}
    (head : Heeds more reader longer form broken given)
    (tail : ∀ value, Heeds more (next value) (nextLonger value) second brokenToo givenToo) :
    Heeds more (reader.andThen next) (longer.andThen nextLonger) (.both form second)
      (broken + form.words * brokenToo) (given + form.words * givenToo) where
  toKeepsTo := head.toKeepsTo.andThen fun value => (tail value).toKeepsTo
  heeds lexemes := by
    simp only [Reader.andThen]
    cases read : reader lexemes with
    | done value rest =>
        rcases head.at_outcome read with same | atEnd | here
        · rw [same]
          rcases (tail value).heeds rest with same | atEnd | behind
          · exact Or.inl same
          · exact Or.inr (Or.inl atEnd)
          · exact Or.inr (Or.inr (Or.inr (head.mem_mul read behind)))
        · obtain rfl : rest = [] := atEnd
          exact Or.inr (Or.inl (tail value).rest_nil)
        · exact Or.inr (Or.inr (Or.inl here))
    | missed setback | failed setback =>
        exact (head.at_outcome read).imp (fun same => by rw [same]; rfl)
          (Or.imp_right Or.inl)
  gives lexemes setback missed atEnd := by
    simp only [Reader.andThen] at missed
    cases read : reader lexemes with
    | done value rest =>
        rw [read] at missed
        exact Or.inr (head.mem_mul read ((tail value).gives missed atEnd))
    | missed inner =>
        rw [read] at missed
        cases missed
        exact Or.inl (head.gives read atEnd)
    | failed inner => rw [read] at missed; cases missed

/-- Broken endings stay what they are, whatever is read in front of them. -/
theorem andThen_endings {forms : List Form} {next nextLonger : α → Reader β}
    (head : Heeds more reader longer form (Form.endings forms) given)
    (tail : ∀ value,
      Heeds more (next value) (nextLonger value) second (Form.endings forms) givenToo) :
    Heeds more (reader.andThen next) (longer.andThen nextLonger) (.both form second)
      (Form.endings forms) (given + form.words * givenToo) :=
  (head.andThen tail).mono (add_le le_rfl (Form.mul_endings_le _ _)) le_rfl

theorem map (heeds : Heeds more reader longer form broken given) (change : α → β) :
    Heeds more (reader.map change) (longer.map change) form broken given :=
  ((heeds.andThen fun value => .succeed (change value)).mono (by simp) (by simp)).congr
    fun _ => Derives.sequence_singleton_iff.mp

/-- What the first reader gives up must not be lost on the second. -/
theorem orElse_of (first : Heeds more reader longer form broken given)
    (next : Heeds more other otherLonger second brokenToo givenToo)
    (recovers : ∀ lexemes, terminals lexemes ∈ given →
      (other lexemes).rest = [] ∨ terminals lexemes ∈ broken + brokenToo) :
    Heeds more (reader.orElse other) (longer.orElse otherLonger) (.either form second)
      (broken + brokenToo) givenToo where
  toKeepsTo := first.toKeepsTo.orElse next.toKeepsTo
  heeds lexemes := by
    simp only [Reader.orElse]
    cases read : reader lexemes with
    | done value rest | failed setback =>
        exact (first.at_outcome read).imp (fun same => by rw [same]; rfl)
          (Or.imp_right Or.inl)
    | missed setback =>
        rcases first.at_outcome read with same | atEnd | here
        · rw [same]
          exact (next.heeds lexemes).imp_right (Or.imp_right Or.inr)
        · exact Or.inr (recovers lexemes (first.gives read atEnd))
        · exact Or.inr (Or.inr (Or.inl here))
  gives lexemes setback missed atEnd := by
    simp only [Reader.orElse] at missed
    cases read : reader lexemes with
    | done value rest => rw [read] at missed; cases missed
    | missed inner => rw [read] at missed; exact next.gives missed atEnd
    | failed inner => rw [read] at missed; cases missed

theorem orElse (first : Heeds more reader longer form broken 1)
    (next : Heeds more other otherLonger second brokenToo givenToo) :
    Heeds more (reader.orElse other) (longer.orElse otherLonger) (.either form second)
      (broken + brokenToo) givenToo := by
  refine first.orElse_of next fun lexemes none => Or.inl ?_
  obtain rfl : lexemes = [] := List.map_eq_nil_iff.mp none
  exact next.rest_nil

/-- What is given up but for the empty word is broken by trying it. -/
theorem optional_of (heeds : Heeds more reader longer form broken given)
    (covered : given ≤ 1 + broken) :
    Heeds more reader.optional longer.optional (.optional form) broken 0 where
  toKeepsTo := heeds.toKeepsTo.optional
  heeds lexemes := by
    simp only [Reader.optional]
    cases read : reader lexemes with
    | done value rest | failed setback =>
        exact (heeds.at_outcome read).imp_left fun same => by rw [same]; rfl
    | missed setback =>
        rcases heeds.at_outcome read with same | atEnd | here
        · rw [same]
          exact Or.inl rfl
        · rcases covered (heeds.gives read atEnd) with none | here
          · exact Or.inr (Or.inl (List.map_eq_nil_iff.mp none))
          · exact Or.inr (Or.inr here)
        · exact Or.inr (Or.inr here)
  gives lexemes setback missed := by
    simp only [Reader.optional] at missed
    cases read : reader lexemes <;> rw [read] at missed <;> cases missed

theorem optional (heeds : Heeds more reader longer form broken 1) :
    Heeds more reader.optional longer.optional (.optional form) broken 0 :=
  heeds.optional_of le_self_add

theorem many_ne_missed (reader : Reader α) (lexemes : List Lexeme) (setback : Setback) :
    Reader.many reader lexemes ≠ .missed setback := by
  intro missed
  fun_induction Reader.many reader lexemes generalizing setback with
  | case2 _ _ _ _ _ _ repeated ih => exact ih _ repeated
  | case1 | case3 | case4 | case5 | case6 => cases missed

theorem many_of (heeds : Heeds more reader longer form broken given)
    (covered : given ≤ 1 + broken) (closed : form.words * broken ≤ broken) :
    Heeds more (Reader.many reader) (Reader.many longer) (.many form) broken 0 where
  toKeepsTo := heeds.toKeepsTo.many
  heeds lexemes := by
    fun_induction Reader.many reader lexemes with
    | case1 lexemes value rest read shorter values final repeated ih
    | case2 lexemes value rest read shorter setback repeated ih
    | case3 lexemes value rest read shorter setback repeated ih =>
        rcases heeds.at_outcome read with same | atEnd | here
        · rw [repeated] at ih
          rcases ih with sameRest | atEnd | behind
          · left
            rw [Reader.many]
            simp only [same, Outcome.extend, List.length_append, Nat.add_lt_add_iff_right, shorter,
              if_true, sameRest]
          · exact Or.inr (Or.inl atEnd)
          · exact Or.inr (Or.inr (closed (heeds.mem_mul read behind)))
        · obtain rfl : rest = [] := atEnd
          have last := heeds.toKeepsTo.many.rest_nil
          rw [repeated] at last
          exact Or.inr (Or.inl last)
        · exact Or.inr (Or.inr here)
    | case4 lexemes value rest read notShorter =>
        rcases heeds.at_outcome read with same | atEnd | here
        · left
          rw [Reader.many]
          simp only [same, Outcome.extend, List.length_append, Nat.add_lt_add_iff_right,
            notShorter, if_false]
        · obtain rfl : rest = [] := atEnd
          exact Or.inr (Or.inl (List.length_eq_zero_iff.mp (Nat.eq_zero_of_not_pos notShorter)))
        · exact Or.inr (Or.inr here)
    | case5 lexemes setback read =>
        rcases heeds.at_outcome read with same | atEnd | here
        · exact Or.inl (many_nil same)
        · rcases covered (heeds.gives read atEnd) with none | here
          · exact Or.inr (Or.inl (List.map_eq_nil_iff.mp none))
          · exact Or.inr (Or.inr here)
        · exact Or.inr (Or.inr here)
    | case6 lexemes setback read =>
        refine (heeds.at_outcome read).imp_left fun same => ?_
        rw [Reader.many]
        simp only [same, Outcome.extend]
  gives lexemes setback missed := absurd missed (many_ne_missed reader lexemes setback)

theorem many (heeds : Heeds more reader longer form broken 1)
    (closed : form.words * broken ≤ broken) :
    Heeds more (Reader.many reader) (Reader.many longer) (.many form) broken 0 :=
  heeds.many_of le_self_add closed

/-- Up to the end of the input there is no going back; an item that stops, stops the whole. -/
theorem exhaust (heeds : Heeds more reader longer form broken given) (firm : form.nullable = false)
    (closed : form.words * broken ≤ broken) :
    Heeds more (Reader.exhaust reader) (Reader.exhaust longer) (.many form) broken ⊤ where
  toKeepsTo := heeds.toKeepsTo.exhaust firm
  heeds lexemes := by
    fun_induction Reader.exhaust reader lexemes with
    | case1 => exact Or.inr (Or.inl rfl)
    | case2 lexemes some value rest read shorter values final repeated ih
    | case3 lexemes some value rest read shorter setback repeated ih
    | case4 lexemes some value rest read shorter setback repeated ih =>
        rcases heeds.at_outcome read with same | atEnd | here
        · rw [repeated] at ih
          rcases ih with sameRest | atEnd | behind
          · left
            rw [Reader.exhaust, if_neg (mt List.append_eq_nil_iff.mp (mt And.left some))]
            simp only [same, Outcome.extend, List.length_append, Nat.add_lt_add_iff_right, shorter,
              if_true, sameRest]
          · exact Or.inr (Or.inl atEnd)
          · exact Or.inr (Or.inr (closed (heeds.mem_mul read behind)))
        · obtain rfl : rest = [] := atEnd
          have last := (heeds.toKeepsTo.exhaust firm).rest_nil
          rw [repeated] at last
          exact Or.inr (Or.inl last)
        · exact Or.inr (Or.inr here)
    | case5 lexemes some value rest read notShorter =>
        refine (heeds.at_outcome read).imp_left fun same => ?_
        rw [Reader.exhaust, if_neg (mt List.append_eq_nil_iff.mp (mt And.left some))]
        simp only [same, Outcome.extend, List.length_append, Nat.add_lt_add_iff_right, notShorter,
          if_false]
    | case6 lexemes some setback read | case7 lexemes some setback read =>
        refine (heeds.at_outcome read).imp_left fun same => ?_
        rw [Reader.exhaust, if_neg (mt List.append_eq_nil_iff.mp (mt And.left some))]
        simp only [same, Outcome.extend]
  gives _ _ _ _ := trivial

/-- A list is broken off behind a separator, if an item cannot be read there. -/
theorem separated {separator separatorLonger : Reader Unit} {sign : Form}
    (item : Heeds more reader longer form broken given)
    (between : Heeds more separator separatorLonger sign 0 1) :
    Heeds more (Reader.separated reader separator) (Reader.separated longer separatorLonger)
      (.separated form sign)
      (broken + form.words * ((Form.many (.sequence [sign, form])).words *
        (sign.words * (given + broken)))) given := by
  have next : Heeds more (separator.andThen fun _ => reader)
      (separatorLonger.andThen fun _ => longer) (.sequence [sign, form]) (sign.words * broken)
      (1 + sign.words * given) :=
    (between.andThen fun _ => item.single).mono (by simp) le_rfl
  have here (tail : Language Terminal) : tail ≤ (Form.many (.sequence [sign, form])).words * tail :=
    le_mul_of_one_le_left' (Form.one_le_words_many _)
  have wider := next.widenTo
    ((Form.many (.sequence [sign, form])).words * (sign.words * (given + broken)))
    ((mul_le_mul_right le_add_self _).trans (here _))
  have others := wider.many_of
      (add_le_add_right ((mul_le_mul_right le_self_add _).trans (here _)) 1)
      (by
        rw [← mul_assoc]
        exact mul_le_mul_left (Form.words_mul_many_le _) _)
  exact (item.andThen fun first => others.andThen fun values => .succeed (first :: values)).mono
    (by simp) (by simp)

/-- Broken endings of items are broken endings of the list. -/
theorem separated_endings {forms : List Form} {separator separatorLonger : Reader Unit}
    {sign : Form}
    (item : Heeds more reader longer form (Form.endings forms) given)
    (between : Heeds more separator separatorLonger sign 0 1) :
    Heeds more (Reader.separated reader separator) (Reader.separated longer separatorLonger)
      (.separated form sign)
      (Form.endings forms + form.words * ((Form.many (.sequence [sign, form])).words *
        (sign.words * given))) given := by
  refine (item.separated between).mono ?_ le_rfl
  have inside := Form.mul_endings_le forms
    (form.words * ((Form.many (.sequence [sign, form])).words * sign.words))
  rw [mul_add, mul_add, mul_add, add_comm (form.words * _), ← add_assoc]
  refine add_le_add_left (add_le le_rfl ?_) _
  simpa only [mul_assoc] using inside

theorem expecting (heeds : Heeds more reader longer form broken given) (description : String) :
    Heeds more (reader.expecting description) (longer.expecting description) form broken given where
  toKeepsTo := heeds.toKeepsTo.expecting description
  heeds lexemes := by
    simp only [Reader.expecting]
    cases read : reader lexemes with
    | done value rest | missed setback | failed setback =>
        exact (heeds.at_outcome read).imp_left fun same => by rw [same]; rfl
  gives lexemes setback missed atEnd := by
    simp only [Reader.expecting] at missed
    cases read : reader lexemes with
    | done value rest | failed inner => rw [read] at missed; cases missed
    | missed inner =>
        rw [read] at missed
        cases missed
        exact heeds.gives read atEnd

/-- A construct that has been entered is not given up. -/
theorem committed (heeds : Heeds more reader longer form broken given) :
    Heeds more reader.committed longer.committed form broken 0 where
  toKeepsTo := heeds.toKeepsTo.committed
  heeds lexemes := by
    simp only [Reader.committed]
    cases read : reader lexemes with
    | done value rest =>
        exact (heeds.at_outcome read).imp_left fun same => by rw [same]; rfl
    | missed setback | failed setback =>
        refine (heeds.at_outcome read).imp_left fun same => ?_
        rw [same]
        cases entered : setback.opened <;>
          simp [Outcome.extend, Setback.extend, entered, List.length_append]
  gives lexemes setback missed := by
    simp only [Reader.committed] at missed
    cases read : reader lexemes <;> rw [read] at missed <;> cases missed

theorem missing (more : List Lexeme) (form : Form) (broken : Language Terminal) :
    Heeds more (Reader.missing : Reader α) Reader.missing form broken 1 where
  sound _ _ _ read := nomatch read
  stops lexemes _ stopped := by cases stopped; exact .atStart form _ lexemes
  heeds _ := Or.inl rfl
  gives _ _ missed atEnd := by cases missed; exact congrArg terminals atEnd

theorem recursive {step : Reader α → Reader α}
    (keeps : ∀ inner innerLonger, Heeds more inner innerLonger form broken 1 →
      Heeds more (step inner) (step innerLonger) form broken 1) :
    Heeds more (Reader.recursive step) (Reader.recursive step) form broken 1 := by
  refine recursive_induction more (fun reader longer each => ?_) (missing more form broken) keeps
  constructor
  · constructor
    · intro lexemes value rest read
      obtain ⟨same, _, heeds, equal, -⟩ := each lexemes
      exact heeds.sound (equal ▸ read)
    · intro lexemes setback stopped
      obtain ⟨same, _, heeds, equal, -⟩ := each lexemes
      exact heeds.stops (equal ▸ stopped)
  · intro lexemes
    obtain ⟨same, sameLonger, heeds, equal, equalLonger⟩ := each lexemes
    rw [equal, equalLonger]
    exact heeds.heeds lexemes
  · intro lexemes setback missed atEnd
    obtain ⟨same, _, heeds, equal, -⟩ := each lexemes
    exact heeds.gives (equal ▸ missed) atEnd

end Heeds

end Reader

end Railroad
