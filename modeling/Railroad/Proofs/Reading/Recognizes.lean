import Railroad.Proofs.Grammar.Form
import Railroad.Proofs.Reading.Yields

/-!
# Readers that recognize forms

A reader is sound for a form when it takes words of the form only, and complete when it takes
every word of the form whole, provided that nothing follows by which the word could go on.  What
could go on is a list of terminals.  The side conditions of the statements compare such lists and
are decided by computation.  Completeness is bounded by the length of the input, so that it can be
used for readers that call themselves on shorter input.
-/

namespace Railroad.Reader

variable {α β : Type} {bound : Nat}

/-- The next lexeme, if there is one, is none of these terminals. -/
def Clear (barred : List Terminal) (lexemes : List Lexeme) : Prop :=
  ∀ lexeme ∈ lexemes.head?, lexeme.token.terminal ∉ barred

namespace Clear

variable {barred more : List Terminal} {lexemes : List Lexeme}

theorem nil (barred : List Terminal) : Clear barred [] := by
  intro lexeme none
  cases none

theorem cons {lexeme : Lexeme} (free : lexeme.token.terminal ∉ barred) (rest : List Lexeme) :
    Clear barred (lexeme :: rest) := by
  intro first next
  cases next
  exact free

theorem of_subset (clear : Clear more lexemes) (subset : ∀ terminal ∈ barred, terminal ∈ more) :
    Clear barred lexemes :=
  fun lexeme next member => clear lexeme next (subset _ member)

/-- What follows a word is clear if the word cannot begin with a barred terminal. -/
theorem append {form : Form} {word rest : List Lexeme} (derives : Derives form (terminals word))
    (clear : Clear more rest) (joins : form.Joins barred more) : Clear barred (word ++ rest) := by
  cases word with
  | nil => exact clear.of_subset (joins.2 derives.nullable_of_nil)
  | cons lexeme others => exact cons (joins.1 _ derives.head_mem_starts) _

end Clear

/-- A word of a form without the empty word begins with one of the terminals of the form. -/
theorem first_of_derives {form : Form} {word : List Lexeme} (derives : Derives form (terminals word))
    (firm : form.nullable = false) :
    ∃ lexeme others, word = lexeme :: others ∧ lexeme.token.terminal ∈ form.starts := by
  cases word with
  | nil => exact absurd rfl (derives.ne_nil firm)
  | cons lexeme others => exact ⟨lexeme, others, rfl, derives.head_mem_starts⟩

/-- Lexemes that form a word of two forms in a row fall into a word of each. -/
theorem split_of_derives {form second : Form} {word : List Lexeme}
    (derives : Derives (.both form second) (terminals word)) :
    ∃ front back, word = front ++ back ∧ Derives form (terminals front) ∧
      Derives second (terminals back) := by
  obtain ⟨_, _, split, head, tail⟩ := Derives.both_iff.mp derives
  obtain ⟨front, back, rfl, rfl, rfl⟩ := List.map_eq_append_iff.mp split
  exact ⟨front, back, rfl, head, tail⟩

theorem split_of_pair {form second : Form} {word : List Lexeme}
    (derives : Derives (.sequence [form, second]) (terminals word)) :
    ∃ front back, word = front ++ back ∧ Derives form (terminals front) ∧
      Derives second (terminals back) := by
  obtain ⟨front, back, split, head, tail⟩ := split_of_derives derives
  exact ⟨front, back, split, head, Derives.sequence_singleton_iff.mp tail⟩

theorem split_of_append {forms others : List Form} {word : List Lexeme}
    (derives : Derives (.sequence (forms ++ others)) (terminals word)) :
    ∃ front back, word = front ++ back ∧ Derives (.sequence forms) (terminals front) ∧
      Derives (.sequence others) (terminals back) := by
  obtain ⟨_, _, split, head, tail⟩ := Derives.sequence_append_iff.mp derives
  obtain ⟨front, back, rfl, rfl, rfl⟩ := List.map_eq_append_iff.mp split
  exact ⟨front, back, rfl, head, tail⟩

/-- Lexemes that form a single terminal. -/
theorem lexeme_of_derives {terminal : Terminal} {word : List Lexeme}
    (derives : Derives (.terminal terminal) (terminals word)) :
    ∃ lexeme, word = [lexeme] ∧ lexeme.token.terminal = terminal :=
  List.map_eq_singleton_iff.mp (Derives.terminal_iff.mp derives)

/-- The reader takes words of the form only. -/
def Sound (reader : Reader α) (form : Form) : Prop :=
  Yields reader fun taken _ => Derives form (terminals taken)

namespace Sound

variable {reader other : Reader α} {form second : Form}

theorem congr (sound : Sound reader form) (same : ∀ word, Derives form word → Derives second word) :
    Sound reader second :=
  sound.mono fun _ _ derives => same _ derives

theorem notion {part : Notion} (sound : Sound reader part.form) : Sound reader (.notion part) :=
  sound.congr fun _ => Derives.notion

theorem single (sound : Sound reader form) : Sound reader (.sequence [form]) :=
  sound.congr fun word derives => List.append_nil word ▸ Derives.both derives .empty

theorem succeed (value : α) : Sound (Reader.succeed value) .empty := by
  refine (Yields.succeed value).mono fun taken _ => ?_
  rintro ⟨rfl, -⟩
  exact .empty

theorem andThen {next : α → Reader β} (head : Sound reader form)
    (tail : ∀ value, Sound (next value) second) : Sound (reader.andThen next) (.both form second) := by
  refine (Yields.andThen head tail).mono fun taken _ => ?_
  rintro ⟨_, front, back, rfl, headDerives, tailDerives⟩
  rw [terminals_append]
  exact .both headDerives tailDerives

theorem map (sound : Sound reader form) (change : α → β) : Sound (reader.map change) form :=
  (Yields.map sound change).mono fun _ _ ⟨_, derives, _⟩ => derives

theorem orElse (first : Sound reader form) (next : Sound other second) :
    Sound (reader.orElse other) (.either form second) :=
  Yields.orElse (first.congr fun _ => Derives.left) (next.congr fun _ => Derives.right)

theorem optional (sound : Sound reader form) : Sound reader.optional (.optional form) := by
  refine (Yields.optional sound).mono fun taken found => ?_
  rintro (⟨rfl, -⟩ | ⟨_, -, derives⟩)
  · exact .absent
  · exact .present derives

theorem derives_of_each {taken : List Lexeme} {values : List α}
    (each : Each (fun taken _ => Derives form (terminals taken)) taken values) :
    Derives (.many form) (terminals taken) := by
  induction each with
  | nil => exact .done
  | cons head _ ih =>
      rw [terminals_append]
      exact .again head ih

theorem many (sound : Sound reader form) : Sound (Reader.many reader) (.many form) :=
  (Yields.many sound).mono fun _ _ => derives_of_each

theorem exhaust (sound : Sound reader form) (firm : form.nullable = false) :
    Sound (Reader.exhaust reader) (.many form) := by
  refine (Yields.exhaust sound fun taken _ derives => ?_).mono fun _ _ => derives_of_each
  rintro rfl
  exact derives.ne_nil firm rfl

theorem separated {separator : Reader Unit} (item : Sound reader form)
    (sign : Sound separator second) :
    Sound (Reader.separated reader separator) (.separated form second) :=
  item.andThen fun _ => (sign.andThen fun _ => item.single).many.andThen fun _ => .succeed _

theorem expecting (sound : Sound reader form) (description : String) :
    Sound (reader.expecting description) form :=
  Yields.expecting sound description

theorem committed (sound : Sound reader form) : Sound reader.committed form :=
  Yields.committed sound

end Sound

/-- One more item is read if it is there and takes something. -/
theorem many_cons {reader : Reader α} {lexemes rest final : List Lexeme} {value : α}
    {values : List α} (here : reader lexemes = .done value rest)
    (shorter : rest.length < lexemes.length) (others : Reader.many reader rest = .done values final) :
    Reader.many reader lexemes = .done (value :: values) final := by
  rw [Reader.many]
  simp only [here, if_pos shorter, others]

theorem many_nil {reader : Reader α} {lexemes : List Lexeme} {setback : Setback}
    (missed : reader lexemes = .missed setback) : Reader.many reader lexemes = .done [] lexemes := by
  rw [Reader.many]
  simp only [missed]

theorem exhaust_cons {reader : Reader α} {lexemes rest final : List Lexeme} {value : α}
    {values : List α} (here : reader lexemes = .done value rest)
    (shorter : rest.length < lexemes.length)
    (others : Reader.exhaust reader rest = .done values final) :
    Reader.exhaust reader lexemes = .done (value :: values) final := by
  have more : lexemes ≠ [] := by
    rintro rfl
    exact Nat.not_lt_zero _ shorter
  rw [Reader.exhaust, if_neg more]
  simp only [here, if_pos shorter, others]

/-- The reader misses whenever no word of the form can begin with the next lexeme. -/
def Misses (reader : Reader α) (form : Form) : Prop :=
  ∀ ⦃lexemes : List Lexeme⦄, Clear form.starts lexemes → ∃ setback, reader lexemes = .missed setback

namespace Misses

variable {reader other : Reader α} {form second : Form}

theorem of_subset (misses : Misses reader form)
    (subset : ∀ terminal ∈ form.starts, terminal ∈ second.starts) : Misses reader second :=
  fun _ clear => misses (clear.of_subset subset)

theorem notion {part : Notion} (misses : Misses reader part.form) : Misses reader (.notion part) :=
  fun _ clear => misses (clear.of_subset part.starts_form)

/-- A sequence misses when its first part does, whatever comes next. -/
theorem before (misses : Misses reader form) (next : α → Reader β) :
    Misses (reader.andThen next) form := by
  intro lexemes clear
  obtain ⟨setback, missed⟩ := misses clear
  exact ⟨setback, by simp only [Reader.andThen, missed]⟩

theorem andThen (misses : Misses reader form) (next : α → Reader β) :
    Misses (reader.andThen next) (.both form second) :=
  (misses.before next).of_subset fun _ => List.mem_append_left _

/-- A part that may be absent is passed over. -/
theorem optional (first : Misses reader form) {next : Option α → Reader β}
    (others : ∀ found, Misses (next found) second) :
    Misses (reader.optional.andThen next) (.both (.optional form) second) := by
  intro lexemes clear
  obtain ⟨_, missed⟩ := first (clear.of_subset fun _ => List.mem_append_left _)
  obtain ⟨setback, missedToo⟩ := others none (clear.of_subset fun _ => List.mem_append_right _)
  exact ⟨setback, by simp only [Reader.andThen, Reader.optional, missed, missedToo]⟩

theorem many (first : Misses reader form) {next : List α → Reader β}
    (others : ∀ values, Misses (next values) second) :
    Misses (Reader.andThen (Reader.many reader) next) (.both (.many form) second) := by
  intro lexemes clear
  obtain ⟨_, missed⟩ := first (clear.of_subset fun _ => List.mem_append_left _)
  obtain ⟨setback, missedToo⟩ := others [] (clear.of_subset fun _ => List.mem_append_right _)
  exact ⟨setback, by simp only [Reader.andThen, many_nil missed, missedToo]⟩

theorem orElse (first : Misses reader form) (next : Misses other second) :
    Misses (reader.orElse other) (.either form second) := by
  intro lexemes clear
  obtain ⟨_, missed⟩ := first (clear.of_subset fun _ => List.mem_append_left _)
  obtain ⟨setback, missedToo⟩ := next (clear.of_subset fun _ => List.mem_append_right _)
  exact ⟨setback, by simp only [Reader.orElse, missed, missedToo]⟩

theorem map (misses : Misses reader form) (change : α → β) : Misses (reader.map change) form :=
  misses.before _

end Misses

/-! ## Completeness -/

/-- The reader takes words of the form whole; `more` holds the terminals by which they may go on. -/
def Completes (bound : Nat) (reader : Reader α) (form : Form) (more : List Terminal) : Prop :=
  ∀ ⦃taken rest : List Lexeme⦄, (taken ++ rest).length ≤ bound →
    Derives form (terminals taken) → Clear more rest → ∃ value, reader (taken ++ rest) = .done value rest

namespace Completes

variable {reader other : Reader α} {form second : Form} {more further : List Terminal}

theorem widen (completes : Completes bound reader form more)
    (wider : ∀ terminal ∈ more, terminal ∈ further) : Completes bound reader form further :=
  fun _ _ fits derives clear => completes fits derives (clear.of_subset wider)

theorem congr (completes : Completes bound reader form more)
    (same : ∀ word, Derives second word → Derives form word) : Completes bound reader second more :=
  fun _ _ fits derives clear => completes fits (same _ derives) clear

theorem notion {part : Notion} (completes : Completes bound reader part.form more) :
    Completes bound reader (.notion part) more :=
  completes.congr fun _ => Derives.notion_iff.mp

theorem single (completes : Completes bound reader form more) :
    Completes bound reader (.sequence [form]) more :=
  completes.congr fun word derives => by
    obtain ⟨front, back, rfl, head, tail⟩ := Derives.both_iff.mp derives
    rwa [Derives.empty_iff.mp tail, List.append_nil]

theorem succeed (value : α) : Completes bound (Reader.succeed value) .empty more := by
  intro taken rest _ derives _
  obtain rfl : taken = [] := List.map_eq_nil_iff.mp (Derives.empty_iff.mp derives)
  exact ⟨value, rfl⟩

/-- The second reader may be complete for shorter input only, if the first has taken something. -/
theorem descend {next : α → Reader β} (head : Completes bound reader form more)
    (joins : second.Joins more further)
    (tail : ∀ size value, (form.nullable = false → size < bound) → size ≤ bound →
      Completes size (next value) second further) :
    Completes bound (reader.andThen next) (.both form second) further := by
  intro taken rest fits derives clear
  obtain ⟨front, back, rfl, headDerives, tailDerives⟩ := split_of_derives derives
  rw [List.append_assoc] at fits ⊢
  obtain ⟨value, read⟩ := head fits headDerives (.append tailDerives clear joins)
  rw [List.length_append] at fits
  have smaller : form.nullable = false → (back ++ rest).length < bound := by
    intro firm
    obtain ⟨_, _, rfl, _⟩ := first_of_derives headDerives firm
    rw [List.length_cons] at fits
    omega
  obtain ⟨result, readRest⟩ := tail _ value smaller (by omega) (Nat.le_refl _) tailDerives clear
  exact ⟨result, by simp only [Reader.andThen, read, readRest]⟩

theorem shrink {size : Nat} (completes : Completes bound reader form more) (smaller : size ≤ bound) :
    Completes size reader form more :=
  fun _ _ fits derives clear => completes (Nat.le_trans fits smaller) derives clear

theorem andThen {next : α → Reader β} (head : Completes bound reader form more)
    (joins : second.Joins more further)
    (tail : ∀ value, Completes bound (next value) second further) :
    Completes bound (reader.andThen next) (.both form second) further :=
  head.descend joins fun _ value _ smaller => (tail value).shrink smaller

theorem map (completes : Completes bound reader form more) (change : α → β) :
    Completes bound (reader.map change) form more := by
  intro taken rest fits derives clear
  obtain ⟨value, read⟩ := completes fits derives clear
  exact ⟨change value, by simp only [Reader.map, Reader.andThen, read, Reader.succeed]⟩

theorem orElse_left (completes : Completes bound reader form more) (other : Reader α) :
    Completes bound (reader.orElse other) form more := by
  intro taken rest fits derives clear
  obtain ⟨value, read⟩ := completes fits derives clear
  exact ⟨value, by simp only [Reader.orElse, read]⟩

/-- The second of two readers gets the words that the first misses. -/
theorem orElse_right (misses : Misses reader form) (apart : second.Apart form.starts)
    (completes : Completes bound other second more) :
    Completes bound (reader.orElse other) second more := by
  intro taken rest fits derives clear
  obtain ⟨lexeme, others, rfl, starts⟩ := first_of_derives derives apart.1
  obtain ⟨setback, missed⟩ := misses (.cons (apart.2 _ starts) (others ++ rest))
  obtain ⟨value, read⟩ := completes fits derives clear
  rw [List.cons_append] at read ⊢
  exact ⟨value, by simp only [Reader.orElse, missed, read]⟩

theorem either (first : Completes bound reader form more)
    (next : Completes bound reader second further) :
    Completes bound reader (.either form second) (more ++ further) := by
  intro taken rest fits derives clear
  rcases Derives.either_iff.mp derives with here | there
  · exact first fits here (clear.of_subset fun _ => List.mem_append_left _)
  · exact next fits there (clear.of_subset fun _ => List.mem_append_right _)

theorem absent (misses : Misses reader form) :
    Completes bound reader.optional .empty form.starts := by
  intro taken rest _ derives clear
  obtain rfl : taken = [] := List.map_eq_nil_iff.mp (Derives.empty_iff.mp derives)
  obtain ⟨setback, missed⟩ := misses clear
  exact ⟨none, by simp only [List.nil_append, Reader.optional, missed]⟩

theorem present (completes : Completes bound reader form more) :
    Completes bound reader.optional form more := by
  intro taken rest fits derives clear
  obtain ⟨value, read⟩ := completes fits derives clear
  exact ⟨some value, by simp only [Reader.optional, read]⟩

theorem optional (misses : Misses reader form) (completes : Completes bound reader form more) :
    Completes bound reader.optional (.optional form) (form.starts ++ more) := by
  refine (either (absent misses) (present completes)).congr fun word derives => ?_
  rcases Derives.optional_iff.mp derives with rfl | derives
  · exact .left .empty
  · exact .right derives

theorem expecting (completes : Completes bound reader form more) (description : String) :
    Completes bound (reader.expecting description) form more := by
  intro taken rest fits derives clear
  obtain ⟨value, read⟩ := completes fits derives clear
  exact ⟨value, by simp only [Reader.expecting, read]⟩

theorem committed (completes : Completes bound reader form more) :
    Completes bound reader.committed form more := by
  intro taken rest fits derives clear
  obtain ⟨value, read⟩ := completes fits derives clear
  exact ⟨value, by simp only [Reader.committed, read]⟩

end Completes

namespace Completes

variable {reader : Reader α} {form : Form} {more : List Terminal}

theorem many (completes : Completes bound reader form more) (misses : Misses reader form)
    (apart : form.Apart more) :
    Completes bound (Reader.many reader) (.many form) (form.starts ++ more) := by
  intro taken rest fits derives clear
  induction length : taken.length using Nat.strongRecOn generalizing taken with
  | ind size ih =>
      rcases Derives.many_iff.mp derives with none | ⟨front, back, split, head, tail⟩
      · obtain rfl : taken = [] := List.map_eq_nil_iff.mp none
        obtain ⟨setback, missed⟩ := misses (clear.of_subset fun _ => List.mem_append_left _)
        exact ⟨[], many_nil missed⟩
      · obtain ⟨first, last, rfl, rfl, rfl⟩ := List.map_eq_append_iff.mp split
        rw [List.append_assoc] at fits ⊢
        obtain ⟨value, read⟩ := completes fits head
          (.append tail clear ⟨apart.2, fun _ _ => List.mem_append_right _⟩)
        obtain ⟨_, _, rfl, _⟩ := first_of_derives head apart.1
        simp only [List.length_append, List.length_cons] at fits length
        have fitsRest : (last ++ rest).length ≤ bound := by
          rw [List.length_append]
          omega
        obtain ⟨values, readRest⟩ := ih last.length (by omega) fitsRest tail rfl
        refine ⟨value :: values, many_cons read ?_ readRest⟩
        simp only [List.length_append, List.length_cons]
        omega

/-- Items with separators between them; an item must not be able to go on with a separator. -/
theorem separated {separator : Reader Unit} {sign : Form}
    (completes : Completes bound reader form more) (signMisses : Misses separator sign)
    (signCompletes : Completes bound separator sign []) (apart : sign.Apart more) :
    Completes bound (Reader.separated reader separator) (.separated form sign)
      (sign.starts ++ more) := by
  have next : Completes bound (separator.andThen fun _ => reader)
      (.both sign (.sequence [form])) more :=
    signCompletes.andThen (.nil _ _) fun _ => completes.single
  have nextMisses : Misses (separator.andThen fun _ => reader) (.both sign (.sequence [form])) :=
    signMisses.andThen _
  have starts : (Form.both sign (.sequence [form])).starts = sign.starts := by
    simp only [Form.starts, apart.1, Bool.false_eq_true, if_false, List.append_nil]
  have others := next.many nextMisses
    ⟨by rw [Form.nullable, apart.1, Bool.false_and], starts.symm ▸ apart.2⟩
  rw [starts] at others
  have finished (first : α) : Completes bound
      (Reader.andThen (Reader.many (separator.andThen fun _ => reader))
        fun values => Reader.succeed (first :: values))
      (.sequence [.many (.sequence [sign, form])]) (sign.starts ++ more) :=
    others.andThen ⟨fun _ none => absurd none List.not_mem_nil, fun _ _ member => member⟩
      fun values => .succeed _
  refine completes.andThen ⟨?_, fun _ _ => List.mem_append_right _⟩ finished
  intro terminal member
  refine apart.2 terminal (starts ▸ ?_)
  simpa [Form.sequence, Form.starts] using member

/-- Up to the end of the input, items are read as often as they come. -/
theorem exhaust (completes : Completes bound reader form more) (apart : form.Apart more)
    {taken : List Lexeme} (fits : taken.length ≤ bound) (derives : Derives (.many form) (terminals taken)) :
    ∃ values, Reader.exhaust reader taken = .done values [] := by
  induction length : taken.length using Nat.strongRecOn generalizing taken with
  | ind size ih =>
      rcases Derives.many_iff.mp derives with none | ⟨front, back, split, head, tail⟩
      · obtain rfl : taken = [] := List.map_eq_nil_iff.mp none
        exact ⟨[], by rw [Reader.exhaust, if_pos rfl]⟩
      · obtain ⟨first, last, rfl, rfl, rfl⟩ := List.map_eq_append_iff.mp split
        have follows : Clear more last := by
          cases last with
          | nil => exact .nil _
          | cons lexeme others => exact .cons (apart.2 _ tail.head_mem_starts) _
        obtain ⟨value, read⟩ := completes fits head follows
        obtain ⟨_, _, rfl, _⟩ := first_of_derives head apart.1
        simp only [List.length_append, List.length_cons] at fits length
        obtain ⟨values, readRest⟩ := ih last.length (by omega) (by omega) tail rfl
        refine ⟨value :: values, exhaust_cons read ?_ readRest⟩
        simp only [List.length_append, List.length_cons]
        omega

/-- A reader that calls itself is complete if a round is, given completeness on shorter input. -/
theorem recursive {step : Reader α → Reader α}
    (keeps : ∀ bound inner, (∀ size < bound, Completes size inner form more) →
      Completes bound (step inner) form more) :
    Completes bound (Reader.recursive step) form more := by
  induction bound using Nat.strongRecOn with
  | ind bound ih =>
      intro taken rest fits derives clear
      rw [Reader.recursive]
      refine keeps (taken ++ rest).length _ (fun size smaller => ?_) (Nat.le_refl _) derives clear
      intro front back fitsInner frontDerives backClear
      have shorter : (front ++ back).length < (taken ++ rest).length :=
        Nat.lt_of_le_of_lt fitsInner smaller
      simp only [if_pos shorter]
      exact ih size (by omega) fitsInner frontDerives backClear

end Completes

/-- Of a word, the reader takes something and leaves a word of the form. -/
def Leaves (reader : Reader α) (form : Form) (word rest : List Lexeme) : Prop :=
  ∃ value next, reader (word ++ rest) = .done value (next ++ rest) ∧
    Derives form (terminals next) ∧ next.length < word.length

namespace Leaves

variable {reader other : Reader α} {form second : Form} {word rest : List Lexeme}

theorem of_completes {more : List Terminal} {taken after : List Lexeme}
    (completes : Completes (taken ++ after ++ rest).length reader second more)
    (derives : Derives second (terminals taken)) (firm : second.nullable = false)
    (afterDerives : Derives form (terminals after)) (clear : Clear more (after ++ rest)) :
    Leaves reader form (taken ++ after) rest := by
  rw [List.append_assoc] at completes
  obtain ⟨value, read⟩ := completes (Nat.le_refl _) derives clear
  obtain ⟨_, _, rfl, _⟩ := first_of_derives derives firm
  refine ⟨value, after, List.append_assoc .. ▸ read, afterDerives, ?_⟩
  simp only [List.length_append, List.length_cons]
  omega

theorem map (leaves : Leaves reader form word rest) (change : α → β) :
    Leaves (reader.map change) form word rest := by
  obtain ⟨value, next, read, derives, shorter⟩ := leaves
  exact ⟨change value, next, by simp only [Reader.map, Reader.andThen, read, Reader.succeed],
    derives, shorter⟩

theorem orElse_left (leaves : Leaves reader form word rest) (other : Reader α) :
    Leaves (reader.orElse other) form word rest := by
  obtain ⟨value, next, read, derives, shorter⟩ := leaves
  exact ⟨value, next, by simp only [Reader.orElse, read], derives, shorter⟩

theorem orElse_right {setback : Setback} (missed : reader (word ++ rest) = .missed setback)
    (leaves : Leaves other form word rest) : Leaves (reader.orElse other) form word rest := by
  obtain ⟨value, next, read, derives, shorter⟩ := leaves
  exact ⟨value, next, by simp only [Reader.orElse, missed, read], derives, shorter⟩

theorem expecting (leaves : Leaves reader form word rest) (description : String) :
    Leaves (reader.expecting description) form word rest := by
  obtain ⟨value, next, read, derives, shorter⟩ := leaves
  exact ⟨value, next, by simp only [Reader.expecting, read], derives, shorter⟩

theorem committed (leaves : Leaves reader form word rest) :
    Leaves reader.committed form word rest := by
  obtain ⟨value, next, read, derives, shorter⟩ := leaves
  exact ⟨value, next, by simp only [Reader.committed, read], derives, shorter⟩

/-- What is left may be taken by the reader that comes next, or left again in part. -/
theorem andThen {next : α → Reader β} (leaves : Leaves reader form word rest)
    (goesOn : ∀ value left, Derives form (terminals left) → ∃ result last,
      next value (left ++ rest) = .done result (last ++ rest) ∧ Derives second (terminals last) ∧
        last.length ≤ left.length) : Leaves (reader.andThen next) second word rest := by
  obtain ⟨value, left, read, derives, shorter⟩ := leaves
  obtain ⟨result, last, readNext, lastDerives, notLonger⟩ := goesOn value left derives
  exact ⟨result, last, by simp only [Reader.andThen, read, readNext], lastDerives,
    Nat.lt_of_le_of_lt notLonger shorter⟩

end Leaves

/-- Repetition takes a word whole if each round leaves a word of the repeated form. -/
theorem Completes.many_of_leaves {reader : Reader α} {form : Form} {more : List Terminal}
    (misses : Misses reader form) (barred : ∀ terminal ∈ form.starts, terminal ∈ more)
    (leaves : ∀ ⦃word rest : List Lexeme⦄, (word ++ rest).length ≤ bound → word ≠ [] →
      Derives (.many form) (terminals word) → Clear more rest →
        Leaves reader (.many form) word rest) :
    Completes bound (Reader.many reader) (.many form) more := by
  intro taken rest fits derives clear
  induction length : taken.length using Nat.strongRecOn generalizing taken with
  | ind size ih =>
      by_cases none : taken = []
      · obtain ⟨setback, missed⟩ := misses (clear.of_subset barred)
        exact ⟨[], none ▸ many_nil missed⟩
      · obtain ⟨value, next, read, nextDerives, shorter⟩ := leaves fits none derives clear
        simp only [List.length_append] at fits
        have fitsNext : (next ++ rest).length ≤ bound := by
          rw [List.length_append]
          omega
        obtain ⟨values, readRest⟩ := ih next.length (length ▸ shorter) fitsNext nextDerives rfl
        refine ⟨value :: values, many_cons read ?_ readRest⟩
        simp only [List.length_append]
        omega

/-! ## Sound and complete readers -/

/-- The reader takes exactly the words of a form. -/
structure Recognizes (reader : Reader α) (form : Form) (more : List Terminal) : Prop where
  sound : Sound reader form
  complete : ∀ bound, Completes bound reader form more

/-- A reader of a form that can be tried before others. -/
structure Decides (reader : Reader α) (form : Form) (more : List Terminal) : Prop
    extends Recognizes reader form more where
  misses : Misses reader form
  firm : form.nullable = false

namespace Recognizes

variable {reader : Reader α} {form second : Form} {more further : List Terminal}

theorem notion {part : Notion} (recognizes : Recognizes reader part.form more) :
    Recognizes reader (.notion part) more :=
  ⟨recognizes.sound.notion, fun bound => (recognizes.complete bound).notion⟩

/-- A reader of a terminal takes a lexeme that stands for it. -/
theorem take {terminal : Terminal} (recognizes : Recognizes reader (.terminal terminal) [])
    {lexeme : Lexeme} (stands : lexeme.token.terminal = terminal) (rest : List Lexeme) :
    ∃ value, reader (lexeme :: rest) = .done value rest := by
  have derives : Derives (.terminal terminal) (terminals [lexeme]) :=
    Derives.terminal_iff.mpr (congrArg (· :: []) stands)
  exact recognizes.complete _ (Nat.le_refl _) derives fun _ _ => List.not_mem_nil

theorem single (recognizes : Recognizes reader form more) :
    Recognizes reader (.sequence [form]) more :=
  ⟨recognizes.sound.single, fun bound => (recognizes.complete bound).single⟩

theorem succeed (value : α) : Recognizes (Reader.succeed value) .empty more :=
  ⟨.succeed value, fun _ => .succeed value⟩

theorem andThen {next : α → Reader β} (head : Recognizes reader form more)
    (joins : second.Joins more further) (tail : ∀ value, Recognizes (next value) second further) :
    Recognizes (reader.andThen next) (.both form second) further where
  sound := head.sound.andThen fun value => (tail value).sound
  complete bound :=
    (head.complete bound).andThen joins fun value => (tail value).complete bound

theorem map (recognizes : Recognizes reader form more) (change : α → β) :
    Recognizes (reader.map change) form more :=
  ⟨recognizes.sound.map change, fun bound => (recognizes.complete bound).map change⟩

theorem expecting (recognizes : Recognizes reader form more) (description : String) :
    Recognizes (reader.expecting description) form more :=
  ⟨recognizes.sound.expecting description,
    fun bound => (recognizes.complete bound).expecting description⟩

theorem committed (recognizes : Recognizes reader form more) :
    Recognizes reader.committed form more :=
  ⟨recognizes.sound.committed, fun bound => (recognizes.complete bound).committed⟩

end Recognizes

namespace Decides

variable {reader other : Reader α} {form second : Form} {more further : List Terminal}

/-- A reader of one lexeme decides the form of the terminals that it selects. -/
theorem accept {select : Lexeme → Option α} (expectation : Expectation)
    (selects : ∀ lexeme, (select lexeme).isSome = true ↔ Derives form [lexeme.token.terminal])
    (one : ∀ word, Derives form word → ∃ terminal, word = [terminal])
    (firm : form.nullable = false) :
    Decides (Reader.accept expectation select) form [] where
  sound := by
    refine (Yields.accept expectation select).mono fun taken value => ?_
    rintro ⟨lexeme, rfl, selected⟩
    exact (selects lexeme).mp (by rw [selected]; rfl)
  complete _ taken rest _ derives _ := by
    obtain ⟨terminal, single⟩ := one _ derives
    obtain ⟨lexeme, rfl, rfl⟩ := List.map_eq_singleton_iff.mp single
    obtain ⟨value, selected⟩ := Option.isSome_iff_exists.mp ((selects lexeme).mpr derives)
    exact ⟨value, by simp only [List.singleton_append, Reader.accept, selected]⟩
  misses lexemes clear := by
    cases lexemes with
    | nil => exact ⟨_, rfl⟩
    | cons lexeme rest =>
        have none : select lexeme = none := by
          rw [← Option.not_isSome_iff_eq_none, selects]
          exact fun derives => clear lexeme rfl derives.head_mem_starts
        simp only [Reader.accept, none]
        exact ⟨_, rfl⟩
  firm := firm

theorem token {wanted : Token} {terminal : Terminal} (same : wanted.terminal = terminal)
    (only : ∀ token : Token, token.terminal = terminal → token = wanted) :
    Decides (Reader.token wanted) (.terminal terminal) [] := by
  refine accept _ (fun lexeme => ?_)
    (fun word derives => ⟨terminal, Derives.terminal_iff.mp derives⟩) rfl
  rw [Derives.terminal_iff, List.cons.injEq]
  constructor
  · intro selected
    by_cases equal : lexeme.token = wanted
    · exact ⟨equal ▸ same, rfl⟩
    · simp [equal] at selected
  · rintro ⟨equal, -⟩
    simp [only _ equal]

theorem notion {part : Notion} (decides : Decides reader part.form more) :
    Decides reader (.notion part) more where
  toRecognizes := decides.toRecognizes.notion
  misses := decides.misses.notion
  firm := part.nullable_form.symm.trans decides.firm

theorem andThen {next : α → Reader β} (head : Decides reader form more)
    (joins : second.Joins more further) (tail : ∀ value, Recognizes (next value) second further) :
    Decides (reader.andThen next) (.both form second) further where
  toRecognizes := head.toRecognizes.andThen joins tail
  misses := head.misses.andThen next
  firm := by rw [Form.nullable, head.firm, Bool.false_and]

theorem map (decides : Decides reader form more) (change : α → β) :
    Decides (reader.map change) form more :=
  ⟨decides.toRecognizes.map change, decides.misses.map change, decides.firm⟩

theorem giving (decides : Decides reader form more) (value : β) :
    Decides (reader.giving value) form more :=
  decides.map fun _ => value

theorem orElse (first : Decides reader form more) (apart : second.Apart form.starts)
    (next : Decides other second further) :
    Decides (reader.orElse other) (.either form second) (more ++ further) where
  sound := first.sound.orElse next.sound
  complete bound := ((first.complete bound).orElse_left other).either
    (.orElse_right first.misses apart (next.complete bound))
  misses := first.misses.orElse next.misses
  firm := by rw [Form.nullable, first.firm, next.firm, Bool.or_self]

theorem optional (decides : Decides reader form more) :
    Recognizes reader.optional (.optional form) (form.starts ++ more) :=
  ⟨decides.sound.optional, fun bound => .optional decides.misses (decides.complete bound)⟩

theorem many (decides : Decides reader form more) (apart : form.Apart more) :
    Recognizes (Reader.many reader) (.many form) (form.starts ++ more) :=
  ⟨decides.sound.many,
    fun bound => (decides.complete bound).many decides.misses apart⟩

end Decides

theorem Recognizes.separated {item : Reader α} {separator : Reader Unit} {form sign : Form}
    {more : List Terminal} (recognizes : Recognizes item form more)
    (decides : Decides separator sign []) (apart : sign.Apart more) :
    Recognizes (Reader.separated item separator) (.separated form sign)
      (sign.starts ++ more) where
  sound := recognizes.sound.separated decides.sound
  complete bound :=
    (recognizes.complete bound).separated decides.misses (decides.complete bound) apart

end Railroad.Reader
