import Railroad.Proofs.Grammar.Beginnings
import Railroad.Proofs.Reading.Recognizes

/-!
# Readers that stop on the way

A reader that does not succeed has stopped somewhere.  It keeps to a form if it takes words of the
form only and, wherever it stops, what lies behind it is the beginning of such a word.  So
whatever the readers have tried and given up in between, the place of a stop is no dead end.
-/

namespace Railroad

variable {α β : Type}

namespace Outcome

/-- What a reader has left of its input, or has not got over. -/
def rest : Outcome α → List Lexeme
  | done _ rest => rest
  | missed setback | failed setback => setback.rest

def setback? : Outcome α → Option Setback
  | done _ _ => none
  | missed setback | failed setback => some setback

end Outcome

namespace Reader

/-- The stop is on the way through a word of the form, in what has been opened within the input. -/
structure StopsAt (form : Form) (lexemes : List Lexeme) (setback : Setback) : Prop where
  begins : ∃ taken, lexemes = taken ++ setback.rest ∧ Commences form (terminals taken)
  opened : ∀ size ∈ setback.opened, size ≤ lexemes.length

namespace StopsAt

variable {form second : Form} {lexemes front back : List Lexeme} {setback : Setback}

theorem atStart (form : Form) (expected : List Expectation) (lexemes : List Lexeme) :
    StopsAt form lexemes ⟨expected, none, lexemes⟩ :=
  ⟨⟨[], rfl, .nil form⟩, fun _ none => nomatch none⟩

/-- What has been taken in front of a stop belongs to the same beginning. -/
theorem after (stops : StopsAt form back setback)
    (joined : ∀ word, Commences form word → Commences second (terminals front ++ word)) :
    StopsAt second (front ++ back) setback := by
  obtain ⟨taken, rfl, begins⟩ := stops.begins
  refine ⟨⟨front ++ taken, (List.append_assoc ..).symm, ?_⟩, fun size opened => ?_⟩
  · rw [terminals_append]
    exact joined _ begins
  · rw [List.length_append]
    exact Nat.le_trans (stops.opened size opened) (Nat.le_add_left ..)

theorem congr (stops : StopsAt form lexemes setback)
    (same : ∀ word, Commences form word → Commences second word) :
    StopsAt second lexemes setback := by
  have joined : StopsAt second ([] ++ lexemes) setback := stops.after same
  exact joined

end StopsAt

/-- The reader takes words of the form, and where it stops it is on the way through one. -/
structure KeepsTo (reader : Reader α) (form : Form) : Prop where
  sound : Sound reader form
  stops : ∀ ⦃lexemes : List Lexeme⦄ ⦃setback : Setback⦄,
    (reader lexemes).setback? = some setback → StopsAt form lexemes setback

namespace KeepsTo

variable {reader other : Reader α} {form second : Form}

theorem congr (keeps : KeepsTo reader form)
    (same : ∀ word, Derives form word → Derives second word) : KeepsTo reader second :=
  ⟨keeps.sound.congr same,
    fun _ _ stopped => (keeps.stops stopped).congr fun _ begins => begins.congr same⟩

/-- What is known of a stop once the outcome is. -/
theorem at_outcome (keeps : KeepsTo reader form) {lexemes : List Lexeme} {outcome : Outcome α}
    {setback : Setback} (read : reader lexemes = outcome)
    (stopped : outcome.setback? = some setback) : StopsAt form lexemes setback :=
  keeps.stops (read ▸ stopped)

/-- Of an input that is used up nothing else is left. -/
theorem rest_nil (keeps : KeepsTo reader form) : (reader []).rest = [] := by
  cases read : reader [] with
  | done value rest =>
      obtain ⟨taken, split, -⟩ := keeps.sound read
      exact (List.append_eq_nil_iff.mp split.symm).2
  | missed setback | failed setback =>
      obtain ⟨taken, split, -⟩ := (keeps.at_outcome read rfl).begins
      exact (List.append_eq_nil_iff.mp split.symm).2

theorem succeed (value : α) : KeepsTo (Reader.succeed value) .empty :=
  ⟨.succeed value, fun _ _ none => nomatch none⟩

theorem accept {expectation : Expectation} {select : Lexeme → Option α}
    (sound : Sound (Reader.accept expectation select) form) :
    KeepsTo (Reader.accept expectation select) form where
  sound := sound
  stops lexemes setback stopped := by
    cases lexemes with
    | nil => cases stopped; exact .atStart form _ _
    | cons lexeme rest =>
        simp only [Reader.accept] at stopped
        split at stopped
        · cases stopped
        · cases stopped; exact .atStart form _ _

theorem andThen {next : α → Reader β} (head : KeepsTo reader form)
    (tail : ∀ value, KeepsTo (next value) second) :
    KeepsTo (reader.andThen next) (.both form second) where
  sound := head.sound.andThen fun value => (tail value).sound
  stops lexemes setback stopped := by
    simp only [Reader.andThen] at stopped
    cases read : reader lexemes with
    | done value rest =>
        rw [read] at stopped
        obtain ⟨taken, rfl, derives⟩ := head.sound read
        exact ((tail value).stops stopped).after fun _ => Commences.both_right derives
    | missed inner | failed inner =>
        rw [read] at stopped
        exact (head.at_outcome read stopped).congr fun _ begins => begins.both_left _

theorem orElse (first : KeepsTo reader form) (next : KeepsTo other second) :
    KeepsTo (reader.orElse other) (.either form second) where
  sound := first.sound.orElse next.sound
  stops lexemes setback stopped := by
    simp only [Reader.orElse] at stopped
    cases read : reader lexemes with
    | done value rest => rw [read] at stopped; cases stopped
    | missed inner =>
        rw [read] at stopped
        exact (next.stops stopped).congr fun _ begins => begins.congr fun _ => .right
    | failed inner =>
        rw [read] at stopped
        exact (first.at_outcome read stopped).congr
          fun _ begins => begins.congr fun _ => .left

theorem optional (keeps : KeepsTo reader form) : KeepsTo reader.optional (.optional form) where
  sound := keeps.sound.optional
  stops lexemes setback stopped := by
    simp only [Reader.optional] at stopped
    cases read : reader lexemes with
    | done value rest | missed inner => rw [read] at stopped; cases stopped
    | failed inner =>
        rw [read] at stopped
        exact (keeps.at_outcome read stopped).congr
          fun _ begins => begins.congr fun _ => .present

theorem many (keeps : KeepsTo reader form) : KeepsTo (Reader.many reader) (.many form) where
  sound := keeps.sound.many
  stops lexemes setback stopped := by
    fun_induction Reader.many reader lexemes with
    | case1 => cases stopped
    | case2 lexemes value rest read shorter inner repeated ih
    | case3 lexemes value rest read shorter inner repeated ih =>
        obtain ⟨taken, rfl, derives⟩ := keeps.sound read
        refine (ih ?_).after fun _ => Commences.again derives
        rw [repeated]
        exact stopped
    | case4 | case5 => cases stopped
    | case6 lexemes inner read =>
        exact (keeps.at_outcome read stopped).congr fun _ => Commences.item

theorem exhaust (keeps : KeepsTo reader form) (firm : form.nullable = false) :
    KeepsTo (Reader.exhaust reader) (.many form) where
  sound := keeps.sound.exhaust firm
  stops lexemes setback stopped := by
    fun_induction Reader.exhaust reader lexemes with
    | case1 | case2 => cases stopped
    | case3 lexemes _ value rest read shorter inner repeated ih
    | case4 lexemes _ value rest read shorter inner repeated ih =>
        obtain ⟨taken, rfl, derives⟩ := keeps.sound read
        refine (ih ?_).after fun _ => Commences.again derives
        rw [repeated]
        exact stopped
    | case5 => cases stopped
    | case6 lexemes _ inner read | case7 lexemes _ inner read =>
        exact (keeps.at_outcome read stopped).congr fun _ => Commences.item

theorem expecting (keeps : KeepsTo reader form) (description : String) :
    KeepsTo (reader.expecting description) form where
  sound := keeps.sound.expecting description
  stops lexemes setback stopped := by
    simp only [Reader.expecting] at stopped
    cases read : reader lexemes with
    | done value rest => rw [read] at stopped; cases stopped
    | missed inner | failed inner =>
        rw [read] at stopped
        cases stopped
        obtain ⟨begins, opened⟩ := keeps.at_outcome read rfl
        exact ⟨begins, opened⟩

/-- The construct that is entered lies within the input. -/
theorem committed (keeps : KeepsTo reader form) : KeepsTo reader.committed form where
  sound := keeps.sound.committed
  stops lexemes setback stopped := by
    simp only [Reader.committed] at stopped
    cases read : reader lexemes with
    | done value rest => rw [read] at stopped; cases stopped
    | missed inner | failed inner =>
        rw [read] at stopped
        cases stopped
        obtain ⟨begins, opened⟩ := keeps.at_outcome read rfl
        refine ⟨begins, fun size found => ?_⟩
        cases entered : inner.opened with
        | none => rw [entered] at found; cases found; exact Nat.le_refl _
        | some earlier => rw [entered] at found; cases found; exact opened size entered

end KeepsTo

end Reader

end Railroad
