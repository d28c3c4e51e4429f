import Railroad.Proofs.Reading.Yields
import Railroad.Proofs.Token.Shape

/-!
# What is built of shaped lexemes

Facts about the values of readers that hold because every lexeme of the input has the shape of a
scanned one.
-/

namespace Railroad.Reader

variable {α β : Type}

def AllShaped (lexemes : List Lexeme) : Prop := ∀ lexeme ∈ lexemes, lexeme.token.Shaped

/-- From shaped lexemes a value of this kind is read, and shaped lexemes are left. -/
def Builds (reader : Reader α) (kind : α → Prop) : Prop :=
  ∀ ⦃lexemes : List Lexeme⦄ ⦃value : α⦄ ⦃rest : List Lexeme⦄, AllShaped lexemes →
    reader lexemes = .done value rest → kind value ∧ AllShaped rest

namespace Builds

variable {reader other : Reader α} {kind : α → Prop} {whole : β → Prop}

theorem of_yields {spelled : List Lexeme → α → Prop} (yields : Yields reader spelled)
    (builds : ∀ taken value, AllShaped taken → spelled taken value → kind value) :
    Builds reader kind := by
  intro lexemes value rest shaped read
  obtain ⟨taken, rfl, spells⟩ := yields read
  obtain ⟨front, back⟩ := List.forall_mem_append.mp shaped
  exact ⟨builds taken value front spells, back⟩

theorem mono {weaker : α → Prop} (builds : Builds reader kind)
    (implies : ∀ value, kind value → weaker value) : Builds reader weaker := by
  intro lexemes value rest shaped read
  obtain ⟨holds, left⟩ := builds shaped read
  exact ⟨implies value holds, left⟩

theorem succeed {value : α} (holds : kind value) : Builds (Reader.succeed value) kind := by
  intro lexemes found rest shaped read
  cases read
  exact ⟨holds, shaped⟩

theorem andThen {next : α → Reader β} (head : Builds reader kind)
    (tail : ∀ value, kind value → Builds (next value) whole) :
    Builds (reader.andThen next) whole := by
  intro lexemes result rest shaped read
  obtain ⟨value, middle, first, last⟩ := andThen_done read
  obtain ⟨holds, left⟩ := head shaped first
  exact tail value holds left last

/-- A part of which nothing needs to be known. -/
theorem skip {spelled : List Lexeme → α → Prop} {next : α → Reader β}
    (yields : Yields reader spelled) (tail : ∀ value, Builds (next value) whole) :
    Builds (reader.andThen next) whole :=
  (of_yields yields fun _ _ _ _ => trivial).andThen fun value (_ : True) => tail value

theorem map {change : α → β} (builds : Builds reader kind)
    (implies : ∀ value, kind value → whole (change value)) : Builds (reader.map change) whole :=
  builds.andThen fun value holds => .succeed (implies value holds)

theorem orElse (first : Builds reader kind) (next : Builds other kind) :
    Builds (reader.orElse other) kind := by
  intro lexemes value rest shaped read
  rcases orElse_done read with here | there
  · exact first shaped here
  · exact next shaped there

theorem optional (builds : Builds reader kind) :
    Builds reader.optional fun found => ∀ value ∈ found, kind value := by
  intro lexemes found rest shaped read
  rcases optional_done read with ⟨value, rfl, here⟩ | ⟨rfl, rfl⟩
  · obtain ⟨holds, left⟩ := builds shaped here
    exact ⟨fun other same => Option.some.inj same ▸ holds, left⟩
  · exact ⟨fun other none => absurd none (Option.not_mem_none _), shaped⟩

theorem many (builds : Builds reader kind) :
    Builds (Reader.many reader) fun values => ∀ value ∈ values, kind value := by
  intro lexemes values rest shaped read
  fun_induction Reader.many reader lexemes generalizing values with
  | case1 lexemes value middle here shorter others final repeated ih =>
      cases read
      obtain ⟨holds, left⟩ := builds shaped here
      obtain ⟨holdOthers, leftLast⟩ := ih left repeated
      exact ⟨List.forall_mem_cons.mpr ⟨holds, holdOthers⟩, leftLast⟩
  | case2 | case3 | case6 => cases read
  | case4 | case5 => cases read; exact ⟨List.forall_mem_nil _, shaped⟩

theorem exhaust (builds : Builds reader kind) :
    Builds (Reader.exhaust reader) fun values => ∀ value ∈ values, kind value := by
  intro lexemes values rest shaped read
  fun_induction Reader.exhaust reader lexemes generalizing values with
  | case1 => cases read; exact ⟨List.forall_mem_nil _, shaped⟩
  | case2 lexemes _ value middle here shorter others final repeated ih =>
      cases read
      obtain ⟨holds, left⟩ := builds shaped here
      obtain ⟨holdOthers, leftLast⟩ := ih left repeated
      exact ⟨List.forall_mem_cons.mpr ⟨holds, holdOthers⟩, leftLast⟩
  | case3 | case4 | case6 | case7 => cases read
  | case5 lexemes _ value middle here =>
      cases read
      obtain ⟨holds, left⟩ := builds shaped here
      exact ⟨List.forall_mem_singleton.mpr holds, left⟩

theorem separated {separator : Reader Unit} {spelled : List Lexeme → Unit → Prop}
    (item : Builds reader kind) (sign : Yields separator spelled) :
    Builds (Reader.separated reader separator)
      fun values => values ≠ [] ∧ ∀ value ∈ values, kind value :=
  item.andThen fun first holds => (skip sign fun _ => item).many.andThen fun others holdOthers =>
    .succeed ⟨List.cons_ne_nil first others, List.forall_mem_cons.mpr ⟨holds, holdOthers⟩⟩

theorem expecting (builds : Builds reader kind) (description : String) :
    Builds (reader.expecting description) kind :=
  fun _ _ _ shaped read => builds shaped (expecting_done read)

theorem committed (builds : Builds reader kind) : Builds reader.committed kind :=
  fun _ _ _ shaped read => builds shaped (committed_done read)

/-- A reader that calls itself on shorter input builds what one round of it builds. -/
theorem recursive {step : Reader α → Reader α}
    (keeps : ∀ inner, Builds inner kind → Builds (step inner) kind) :
    Builds (Reader.recursive step) kind := by
  intro lexemes
  induction size : lexemes.length using Nat.strongRecOn generalizing lexemes with
  | ind size ih =>
      intro value rest shaped read
      rw [Reader.recursive] at read
      refine keeps _ (fun input found last shapedInput inner => ?_) shaped read
      by_cases shorter : input.length < lexemes.length
      · rw [if_pos shorter] at inner
        exact ih input.length (size ▸ shorter) rfl shapedInput inner
      · rw [if_neg shorter] at inner
        cases inner

end Builds

end Railroad.Reader
