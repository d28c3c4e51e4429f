import Railroad.Proofs.Grammar.Phases

/-!
# Readers that stop at the end of their input

A reader settles if nothing is pending where it stops at the end of its input, provided it has
begun in one of the given phases.  Of a reader that is only tried this is asked where it fails; a
miss is taken back and does not matter.
-/

namespace Railroad

variable {α β : Type}

/-- Where the outcome stops reading; if it is that of a trial, a miss does not. -/
def Outcome.stop? (tried : Bool) : Outcome α → Option Setback
  | done _ _ => none
  | missed setback => if tried then none else some setback
  | failed setback => some setback

/-- The phases in which words of the form end that begin in one of these, as far as it is known. -/
def Form.ends (form : Form) (phases : List Phase) : List Phase := (form.reach phases).getD []

namespace Form

variable {form : Form} {phases : List Phase}

theorem reach_eq_ends (known : (form.reach phases).isSome = true) :
    form.reach phases = some (form.ends phases) := by
  obtain ⟨found, reached⟩ := Option.isSome_iff_exists.mp known
  rw [ends, reached]
  rfl

theorem run_mem_ends (known : (form.reach phases).isSome = true) {phase : Phase}
    (member : phase ∈ phases) {word : List Terminal} (derives : Derives form word) :
    phase.run word ∈ form.ends phases :=
  run_mem_of_reach derives (reach_eq_ends known) member

end Form

/-- Phases in which nothing is pending. -/
def Phase.Calm (phases : List Phase) : Prop := ∀ phase ∈ phases, phase.pending = false

instance (phases : List Phase) : Decidable (Phase.Calm phases) :=
  inferInstanceAs (Decidable (∀ phase ∈ phases, phase.pending = false))

namespace Reader

/-- A stop at the end of the input is in a phase in which nothing is pending. -/
structure Settles (tried : Bool) (reader : Reader α) (form : Form) (phases : List Phase) :
    Prop where
  sound : Sound reader form
  settled : ∀ ⦃phase⦄, phase ∈ phases → ∀ ⦃lexemes setback⦄,
    (reader lexemes).stop? tried = some setback → setback.rest = [] →
      (phase.run (terminals lexemes)).pending = false

namespace Settles

variable {tried : Bool} {reader other : Reader α} {form second : Form} {phases fewer : List Phase}

theorem mono (settles : Settles tried reader form phases) (within : fewer ⊆ phases) :
    Settles tried reader form fewer :=
  ⟨settles.sound, fun _ member => settles.settled (within member)⟩

theorem congr (settles : Settles tried reader form phases)
    (same : ∀ word, Derives form word → Derives second word) :
    Settles tried reader second phases :=
  ⟨settles.sound.congr same, settles.settled⟩

theorem notion {part : Notion} (settles : Settles tried reader part.form phases) :
    Settles tried reader (.notion part) phases :=
  settles.congr fun _ => .notion

theorem single (settles : Settles tried reader form phases) :
    Settles tried reader (.sequence [form]) phases :=
  settles.congr fun _ => Derives.sequence_singleton_iff.mpr

/-- What is known of a stop once the outcome is. -/
theorem at_outcome (settles : Settles tried reader form phases) {phase : Phase}
    (member : phase ∈ phases) {lexemes : List Lexeme} {outcome : Outcome α} {setback : Setback}
    (read : reader lexemes = outcome) (stopped : outcome.stop? tried = some setback)
    (atEnd : setback.rest = []) : (phase.run (terminals lexemes)).pending = false :=
  settles.settled member (read ▸ stopped) atEnd

theorem succeed (value : α) : Settles tried (Reader.succeed value) .empty phases :=
  ⟨.succeed value, fun _ _ _ _ none => nomatch none⟩

/-- A reader of one lexeme stops at the end only of an input that has come to it. -/
theorem accept {expectation : Expectation} {select : Lexeme → Option α}
    (sound : Sound (Reader.accept expectation select) form)
    (calm : tried = true ∨ Phase.Calm phases) :
    Settles tried (Reader.accept expectation select) form phases where
  sound := sound
  settled phase member lexemes setback stopped atEnd := by
    cases lexemes with
    | nil =>
        rcases calm with rfl | calm
        · cases stopped
        · exact calm phase member
    | cons lexeme rest =>
        simp only [Reader.accept] at stopped
        split at stopped
        · cases stopped
        · cases tried <;> cases stopped
          cases atEnd

theorem andThen {next : α → Reader β} (head : Settles tried reader form phases)
    (known : (form.reach phases).isSome = true)
    (tail : ∀ value, Settles tried (next value) second (form.ends phases)) :
    Settles tried (reader.andThen next) (.both form second) phases where
  sound := head.sound.andThen fun value => (tail value).sound
  settled phase member lexemes setback stopped atEnd := by
    simp only [Reader.andThen] at stopped
    cases read : reader lexemes with
    | done value rest =>
        rw [read] at stopped
        obtain ⟨taken, rfl, derives⟩ := head.sound read
        rw [terminals_append, Phase.run_append]
        exact (tail value).settled (Form.run_mem_ends known member derives) stopped atEnd
    | missed inner | failed inner =>
        rw [read] at stopped
        exact head.at_outcome member read stopped atEnd

theorem map (settles : Settles tried reader form phases) (change : α → β) :
    Settles tried (reader.map change) form phases where
  sound := settles.sound.map change
  settled phase member lexemes setback stopped atEnd := by
    simp only [Reader.map, Reader.andThen] at stopped
    cases read : reader lexemes with
    | done value rest => rw [read] at stopped; cases stopped
    | missed inner | failed inner =>
        rw [read] at stopped
        exact settles.at_outcome member read stopped atEnd

theorem orElse (first : Settles true reader form phases)
    (next : Settles tried other second phases) :
    Settles tried (reader.orElse other) (.either form second) phases where
  sound := first.sound.orElse next.sound
  settled phase member lexemes setback stopped atEnd := by
    simp only [Reader.orElse] at stopped
    cases read : reader lexemes with
    | done value rest => rw [read] at stopped; cases stopped
    | missed inner =>
        rw [read] at stopped
        exact next.settled member stopped atEnd
    | failed inner =>
        rw [read] at stopped
        exact first.at_outcome member read stopped atEnd

theorem optional (settles : Settles true reader form phases) :
    Settles tried reader.optional (.optional form) phases where
  sound := settles.sound.optional
  settled phase member lexemes setback stopped atEnd := by
    simp only [Reader.optional] at stopped
    cases read : reader lexemes with
    | done value rest | missed inner => rw [read] at stopped; cases stopped
    | failed inner =>
        rw [read] at stopped
        exact settles.at_outcome member read stopped atEnd

/-- Items are read in all the phases in which items end. -/
theorem many (known : ((Form.many form).reach phases).isSome = true)
    (settles : Settles true reader form ((Form.many form).ends phases)) :
    Settles tried (Reader.many reader) (.many form) phases where
  sound := settles.sound.many
  settled phase member lexemes setback stopped atEnd := by
    obtain ⟨wider, again, reached, closed⟩ := Form.reach_many (Form.reach_eq_ends known)
    replace member := wider member
    fun_induction Reader.many reader lexemes generalizing phase with
    | case1 => cases stopped
    | case2 lexemes value rest read shorter inner repeated ih
    | case3 lexemes value rest read shorter inner repeated ih =>
        obtain ⟨taken, rfl, derives⟩ := settles.sound read
        rw [terminals_append, Phase.run_append]
        refine ih _ ?_ (closed (Form.run_mem_of_reach derives reached member))
        rw [repeated]
        exact stopped
    | case4 | case5 => cases stopped
    | case6 lexemes inner read =>
        exact settles.at_outcome member read stopped atEnd

/-- Up to the end of the input no item is only tried. -/
theorem exhaust (firm : form.nullable = false)
    (known : ((Form.many form).reach phases).isSome = true)
    (settles : Settles false reader form ((Form.many form).ends phases)) :
    Settles tried (Reader.exhaust reader) (.many form) phases where
  sound := settles.sound.exhaust firm
  settled phase member lexemes setback stopped atEnd := by
    obtain ⟨wider, again, reached, closed⟩ := Form.reach_many (Form.reach_eq_ends known)
    replace member := wider member
    fun_induction Reader.exhaust reader lexemes generalizing phase with
    | case1 | case2 => cases stopped
    | case3 lexemes _ value rest read shorter inner repeated ih
    | case4 lexemes _ value rest read shorter inner repeated ih =>
        obtain ⟨taken, rfl, derives⟩ := settles.sound read
        rw [terminals_append, Phase.run_append]
        refine ih _ ?_ (closed (Form.run_mem_of_reach derives reached member))
        rw [repeated]
        exact stopped
    | case5 => cases stopped
    | case6 lexemes _ inner read | case7 lexemes _ inner read =>
        cases tried <;> cases stopped <;> exact settles.at_outcome member read rfl atEnd

/-- Phases in which an item of a list has ended. -/
def itemEnds (form sign : Form) (phases : List Phase) : List Phase :=
  (Form.many (.sequence [sign, form])).ends (form.ends phases)

/-- The first item decides how a list stops; the others are only tried. -/
theorem separated {separator : Reader Unit} {sign : Form}
    (item : Settles tried reader form phases) (known : (form.reach phases).isSome = true)
    (knownOthers : ((Form.many (.sequence [sign, form])).reach (form.ends phases)).isSome = true)
    (between : Settles true separator sign (itemEnds form sign phases))
    (knownSign : (sign.reach (itemEnds form sign phases)).isSome = true)
    (next : Settles true reader form (sign.ends (itemEnds form sign phases))) :
    Settles tried (Reader.separated reader separator) (.separated form sign) phases :=
  have others : Settles tried _ _ (form.ends phases) :=
    many knownOthers (between.andThen knownSign fun _ => next.single)
  item.andThen known fun _ => others.andThen knownOthers fun _ => .succeed _

theorem expecting (settles : Settles tried reader form phases) (description : String) :
    Settles tried (reader.expecting description) form phases where
  sound := settles.sound.expecting description
  settled phase member lexemes setback stopped atEnd := by
    simp only [Reader.expecting] at stopped
    cases read : reader lexemes with
    | done value rest => rw [read] at stopped; cases stopped
    | missed inner | failed inner =>
        rw [read] at stopped
        cases tried <;> cases stopped <;>
          exact settles.at_outcome member read rfl atEnd

/-- A construct that has been entered is not only tried. -/
theorem committed (settles : Settles false reader form phases) :
    Settles tried reader.committed form phases where
  sound := settles.sound.committed
  settled phase member lexemes setback stopped atEnd := by
    simp only [Reader.committed] at stopped
    cases read : reader lexemes with
    | done value rest => rw [read] at stopped; cases stopped
    | missed inner | failed inner =>
        rw [read] at stopped
        cases stopped
        exact settles.at_outcome member read rfl atEnd

theorem missing (calm : Phase.Calm phases) :
    Settles tried (Reader.missing : Reader α) form phases where
  sound _ _ _ read := nomatch read
  settled phase member lexemes setback stopped atEnd := by
    cases tried <;> cases stopped
    exact (congrArg terminals atEnd : terminals lexemes = []) ▸ calm phase member

theorem recursive {step : Reader α → Reader α} (calm : Phase.Calm phases)
    (keeps : ∀ inner, Settles tried inner form phases → Settles tried (step inner) form phases) :
    Settles tried (Reader.recursive step) form phases := by
  refine recursive_induction [] (motive := fun reader _ => Settles tried reader form phases)
    (fun reader _ each => ⟨?_, ?_⟩) (missing calm) fun inner _ => keeps inner
  · intro lexemes value rest read
    obtain ⟨same, _, settles, equal, -⟩ := each lexemes
    exact settles.sound (equal ▸ read)
  · intro phase member lexemes setback stopped atEnd
    obtain ⟨same, _, settles, equal, -⟩ := each lexemes
    exact settles.settled member (equal ▸ stopped) atEnd

end Settles

end Reader

end Railroad
