import Railroad.Reading

/-!
# What a successful reader has taken

A reader that succeeds has taken lexemes off the front of its input.  `Yields` says how what was
taken spells the value that was read; there is one statement for every way of building readers.
-/

namespace Railroad.Reader

variable {α β : Type}

/-- Every success of the reader has taken lexemes that spell its value. -/
def Yields (reader : Reader α) (spelled : List Lexeme → α → Prop) : Prop :=
  ∀ ⦃lexemes : List Lexeme⦄ ⦃value : α⦄ ⦃rest : List Lexeme⦄,
    reader lexemes = .done value rest → ∃ taken, lexemes = taken ++ rest ∧ spelled taken value

/-- Lexemes that spell the values of a list one after the other. -/
inductive Each (spelled : List Lexeme → α → Prop) : List Lexeme → List α → Prop where
  | nil : Each spelled [] []
  | cons {front back : List Lexeme} {value : α} {values : List α} (head : spelled front value)
      (tail : Each spelled back values) : Each spelled (front ++ back) (value :: values)

theorem Each.mono {spelled other : List Lexeme → α → Prop} {taken : List Lexeme} {values : List α}
    (each : Each spelled taken values)
    (weaker : ∀ front value, spelled front value → other front value) : Each other taken values := by
  induction each with
  | nil => exact .nil
  | cons head _ ih => exact .cons (weaker _ _ head) ih

/-- Every value of the list is spelled by some of the lexemes. -/
theorem Each.of_mem {spelled : List Lexeme → α → Prop} {taken : List Lexeme} {values : List α}
    {value : α} (each : Each spelled taken values) (member : value ∈ values) :
    ∃ front middle back, taken = front ++ middle ++ back ∧ spelled middle value := by
  induction each with
  | nil => exact absurd member List.not_mem_nil
  | @cons front back first values head _ ih =>
      rcases List.mem_cons.mp member with rfl | later
      · exact ⟨[], front, back, rfl, head⟩
      · obtain ⟨before, middle, after, rfl, spells⟩ := ih later
        exact ⟨front ++ before, middle, after, by simp only [List.append_assoc], spells⟩

/-- Both parts of a sequence that succeeds have succeeded. -/
theorem andThen_done {reader : Reader α} {next : α → Reader β} {lexemes rest : List Lexeme}
    {result : β} (read : reader.andThen next lexemes = .done result rest) :
    ∃ value middle, reader lexemes = .done value middle ∧ next value middle = .done result rest := by
  simp only [Reader.andThen] at read
  cases first : reader lexemes with
  | done value middle =>
      rw [first] at read
      exact ⟨value, middle, rfl, read⟩
  | missed setback => rw [first] at read; cases read
  | failed setback => rw [first] at read; cases read

/-- An alternative that succeeds is one of the two. -/
theorem orElse_done {reader other : Reader α} {lexemes rest : List Lexeme} {value : α}
    (read : reader.orElse other lexemes = .done value rest) :
    reader lexemes = .done value rest ∨ other lexemes = .done value rest := by
  simp only [Reader.orElse] at read
  cases tried : reader lexemes with
  | done found middle => rw [tried] at read; exact Or.inl read
  | missed setback => rw [tried] at read; exact Or.inr read
  | failed setback => rw [tried] at read; cases read

/-- An optional part is there, or nothing has been taken. -/
theorem optional_done {reader : Reader α} {lexemes rest : List Lexeme} {found : Option α}
    (read : reader.optional lexemes = .done found rest) :
    (∃ value, found = some value ∧ reader lexemes = .done value rest) ∨
      found = none ∧ rest = lexemes := by
  simp only [Reader.optional] at read
  cases tried : reader lexemes with
  | done value middle => rw [tried] at read; cases read; exact Or.inl ⟨value, rfl, rfl⟩
  | missed setback => rw [tried] at read; cases read; exact Or.inr ⟨rfl, rfl⟩
  | failed setback => rw [tried] at read; cases read

theorem expecting_done {reader : Reader α} {description : String} {lexemes rest : List Lexeme}
    {value : α} (read : reader.expecting description lexemes = .done value rest) :
    reader lexemes = .done value rest := by
  simp only [Reader.expecting] at read
  cases tried : reader lexemes with
  | done found middle => rw [tried] at read; exact read
  | missed setback | failed setback => rw [tried] at read; cases read

theorem committed_done {reader : Reader α} {lexemes rest : List Lexeme} {value : α}
    (read : reader.committed lexemes = .done value rest) : reader lexemes = .done value rest := by
  simp only [Reader.committed] at read
  cases tried : reader lexemes with
  | done found middle => rw [tried] at read; exact read
  | missed setback | failed setback => rw [tried] at read; cases read

theorem andThen_of_done {reader : Reader α} {lexemes rest : List Lexeme} {value : α}
    (read : reader lexemes = .done value rest) (next : α → Reader β) :
    reader.andThen next lexemes = next value rest := by
  simp only [Reader.andThen, read]

namespace Yields

variable {reader : Reader α} {spelled other : List Lexeme → α → Prop}

theorem mono (yields : Yields reader spelled)
    (weaker : ∀ taken value, spelled taken value → other taken value) : Yields reader other := by
  intro lexemes value rest read
  obtain ⟨taken, split, spells⟩ := yields read
  exact ⟨taken, split, weaker taken value spells⟩

/-- What has been taken is determined by what is left. -/
theorem both (first : Yields reader spelled) (second : Yields reader other) :
    Yields reader fun taken value => spelled taken value ∧ other taken value := by
  intro lexemes value rest read
  obtain ⟨taken, split, spells⟩ := first read
  obtain ⟨same, splitToo, spellsToo⟩ := second read
  obtain rfl : taken = same := List.append_cancel_right (split.symm.trans splitToo)
  exact ⟨taken, split, spells, spellsToo⟩

theorem succeed (value : α) :
    Yields (Reader.succeed value) fun taken found => taken = [] ∧ found = value := by
  intro lexemes found rest read
  cases read
  exact ⟨[], rfl, rfl, rfl⟩

theorem accept (expectation : Expectation) (select : Lexeme → Option α) :
    Yields (Reader.accept expectation select) fun taken value =>
      ∃ lexeme, taken = [lexeme] ∧ select lexeme = some value := by
  intro lexemes value rest read
  cases lexemes with
  | nil => cases read
  | cons lexeme others =>
      simp only [Reader.accept] at read
      split at read
      next found selected =>
        cases read
        exact ⟨[lexeme], rfl, lexeme, rfl, selected⟩
      next => cases read

theorem token (wanted : Token) :
    Yields (Reader.token wanted) fun taken _ => ∃ lexeme, taken = [lexeme] ∧ lexeme.token = wanted := by
  refine (accept _ _).mono fun taken value => ?_
  rintro ⟨lexeme, rfl, selected⟩
  refine ⟨lexeme, rfl, ?_⟩
  split at selected
  · assumption
  · cases selected

theorem andThen {next : α → Reader β} {follows : α → List Lexeme → β → Prop}
    (head : Yields reader spelled) (tail : ∀ value, Yields (next value) (follows value)) :
    Yields (reader.andThen next) fun taken result =>
      ∃ value front back, taken = front ++ back ∧ spelled front value ∧ follows value back result := by
  intro lexemes result rest read
  obtain ⟨value, middle, first, last⟩ := andThen_done read
  obtain ⟨front, split, headSpelled⟩ := head first
  obtain ⟨back, splitRest, tailSpelled⟩ := tail value last
  refine ⟨front ++ back, ?_, value, front, back, rfl, headSpelled, tailSpelled⟩
  rw [split, splitRest, List.append_assoc]

theorem map (yields : Yields reader spelled) (change : α → β) :
    Yields (reader.map change) fun taken result =>
      ∃ value, spelled taken value ∧ result = change value := by
  refine (yields.andThen fun value => succeed (change value)).mono fun taken result => ?_
  rintro ⟨value, front, back, rfl, spells, rfl, same⟩
  rw [List.append_nil]
  exact ⟨value, spells, same⟩

theorem giving (yields : Yields reader spelled) (result : β) :
    Yields (reader.giving result) fun taken found =>
      found = result ∧ ∃ value, spelled taken value := by
  refine (yields.map fun _ => result).mono fun taken found => ?_
  rintro ⟨value, spells, same⟩
  exact ⟨same, value, spells⟩

theorem orElse {second : Reader α} (first : Yields reader spelled) (next : Yields second spelled) :
    Yields (reader.orElse second) spelled := by
  intro lexemes value rest read
  rcases orElse_done read with here | there
  · exact first here
  · exact next there

theorem optional (yields : Yields reader spelled) :
    Yields reader.optional fun taken found =>
      taken = [] ∧ found = none ∨ ∃ value, found = some value ∧ spelled taken value := by
  intro lexemes found rest read
  rcases optional_done read with ⟨value, rfl, here⟩ | ⟨rfl, rfl⟩
  · obtain ⟨taken, split, spells⟩ := yields here
    exact ⟨taken, split, Or.inr ⟨value, rfl, spells⟩⟩
  · exact ⟨[], rfl, Or.inl ⟨rfl, rfl⟩⟩

theorem many (yields : Yields reader spelled) : Yields (Reader.many reader) (Each spelled) := by
  intro lexemes values rest read
  fun_induction Reader.many reader lexemes generalizing values with
  | case1 lexemes value middle here shorter others final repeated ih =>
      cases read
      obtain ⟨front, split, spells⟩ := yields here
      obtain ⟨back, splitRest, each⟩ := ih repeated
      refine ⟨front ++ back, ?_, .cons spells each⟩
      rw [split, splitRest, List.append_assoc]
  | case2 => cases read
  | case3 => cases read
  | case4 | case5 => cases read; exact ⟨[], rfl, .nil⟩
  | case6 => cases read

/-- Where something has been taken, less is left. -/
theorem shorter (yields : Yields reader spelled)
    (progress : ∀ taken value, spelled taken value → taken ≠ []) {lexemes rest : List Lexeme}
    {value : α} (read : reader lexemes = .done value rest) : rest.length < lexemes.length := by
  obtain ⟨taken, split, spells⟩ := yields read
  have positive := List.length_pos_iff.mpr (progress taken value spells)
  rw [split, List.length_append]
  omega

theorem exhaust (yields : Yields reader spelled)
    (progress : ∀ taken value, spelled taken value → taken ≠ []) :
    Yields (Reader.exhaust reader) (Each spelled) := by
  intro lexemes values rest read
  fun_induction Reader.exhaust reader lexemes generalizing values with
  | case1 =>
      cases read
      exact ⟨[], rfl, .nil⟩
  | case2 lexemes _ value middle here shorter others final repeated ih =>
      cases read
      obtain ⟨front, split, spells⟩ := yields here
      obtain ⟨back, splitRest, each⟩ := ih repeated
      refine ⟨front ++ back, ?_, .cons spells each⟩
      rw [split, splitRest, List.append_assoc]
  | case3 | case4 | case6 | case7 => cases read
  | case5 lexemes _ value middle here notShorter =>
      exact absurd (yields.shorter progress here) notShorter

/-- A reader of what is left takes all of it, if each item takes something. -/
theorem exhaust_nil (yields : Yields reader spelled)
    (progress : ∀ taken value, spelled taken value → taken ≠ []) {lexemes rest : List Lexeme}
    {values : List α} (read : Reader.exhaust reader lexemes = .done values rest) : rest = [] := by
  fun_induction Reader.exhaust reader lexemes generalizing values with
  | case1 => cases read; rfl
  | case2 _ _ _ _ _ _ _ _ repeated ih =>
      cases read
      exact ih repeated
  | case3 | case4 | case6 | case7 => cases read
  | case5 lexemes _ value middle here notShorter =>
      exact absurd (yields.shorter progress here) notShorter

/-- A separated list has a first item. -/
theorem separated {separator : Reader Unit} {between : List Lexeme → Unit → Prop}
    (item : Yields reader spelled) (sign : Yields separator between) :
    Yields (Reader.separated reader separator) fun taken values =>
      ∃ first others front back, values = first :: others ∧ taken = front ++ back ∧
        spelled front first ∧ Each (fun taken value => ∃ sign item, taken = sign ++ item ∧
          between sign () ∧ spelled item value) back others := by
  have further : Yields (separator.andThen fun _ => reader) fun taken value =>
      ∃ sign item, taken = sign ++ item ∧ between sign () ∧ spelled item value :=
    (sign.andThen fun _ => item).mono fun _ _ ⟨_, sign, item, split, spells⟩ =>
      ⟨sign, item, split, spells⟩
  refine (item.andThen fun first => further.many.andThen fun others =>
    succeed (first :: others)).mono fun taken values => ?_
  rintro ⟨first, front, _, rfl, head, others, back, _, rfl, tail, rfl, rfl⟩
  exact ⟨first, others, front, back, rfl, by rw [List.append_nil], head, tail⟩

theorem expecting (yields : Yields reader spelled) (description : String) :
    Yields (reader.expecting description) spelled :=
  fun _ _ _ read => yields (expecting_done read)

theorem committed (yields : Yields reader spelled) : Yields reader.committed spelled :=
  fun _ _ _ read => yields (committed_done read)

/-- A reader that calls itself on shorter input yields what one round of it preserves. -/
theorem recursive {step : Reader α → Reader α}
    (keeps : ∀ inner, Yields inner spelled → Yields (step inner) spelled) :
    Yields (Reader.recursive step) spelled := by
  suffices bounded : ∀ (size : Nat) (lexemes : List Lexeme), lexemes.length = size →
      ∀ value rest, Reader.recursive step lexemes = .done value rest →
        ∃ taken, lexemes = taken ++ rest ∧ spelled taken value from
    fun lexemes value rest read => bounded _ lexemes rfl value rest read
  intro size
  induction size using Nat.strongRecOn with
  | ind size ih =>
      intro lexemes length value rest read
      rw [Reader.recursive] at read
      refine keeps _ (fun input found last inner => ?_) read
      by_cases shorter : input.length < lexemes.length
      · simp only [shorter, if_true] at inner
        exact ih input.length (length ▸ shorter) input rfl found last inner
      · simp only [shorter, if_false] at inner
        cases inner

end Yields

end Railroad.Reader
