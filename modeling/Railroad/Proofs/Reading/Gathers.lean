import Railroad.Proofs.Reading.Yields

/-!
# What readers gather

Something is gathered from the lexemes that a reader takes, part by part: their tokens, or the
names among them.  `Gathers` says that this is what the value of the reader holds.
-/

namespace Railroad.Reader

variable {α β γ : Type}

/-- What is gathered from lexemes is gathered from their parts. -/
class Additive (gathered : List Lexeme → List γ → Prop) : Prop where
  nil : gathered [] []
  append {front back : List Lexeme} {first second : List γ} (head : gathered front first)
    (tail : gathered back second) : gathered (front ++ back) (first ++ second)

/-- What is gathered for the reader, behind what was gathered before, makes up what its value
holds. -/
def Gathers (gathered : List Lexeme → List γ → Prop) (reader : Reader α) (before : List γ)
    (target : α → List γ) : Prop :=
  Yields reader fun taken value => ∃ own, gathered taken own ∧ before ++ own = target value

namespace Gathers

variable {gathered : List Lexeme → List γ → Prop} {reader other : Reader α} {before : List γ}
  {target : α → List γ}

theorem of_yields (yields : Yields reader fun taken value => gathered taken (target value)) :
    Gathers gathered reader [] target :=
  yields.mono fun _ value holds => ⟨target value, holds, rfl⟩

theorem yields (gathers : Gathers gathered reader [] target) :
    Yields reader fun taken value => gathered taken (target value) := by
  refine gathers.mono fun taken value => ?_
  rintro ⟨own, holds, rfl⟩
  exact holds

theorem behind (gathers : Gathers gathered reader [] target) (before : List γ) :
    Gathers gathered reader before fun value => before ++ target value :=
  gathers.yields.mono fun _ value holds => ⟨target value, holds, rfl⟩

theorem orElse (first : Gathers gathered reader before target)
    (next : Gathers gathered other before target) :
    Gathers gathered (reader.orElse other) before target :=
  Yields.orElse first next

theorem map {whole : β → List γ} {change : α → β} (gathers : Gathers gathered reader before target)
    (same : ∀ value, target value = whole (change value)) :
    Gathers gathered (reader.map change) before whole := by
  refine (Yields.map gathers change).mono fun taken result => ?_
  rintro ⟨value, ⟨own, holds, spells⟩, rfl⟩
  exact ⟨own, holds, spells.trans (same value)⟩

theorem expecting (gathers : Gathers gathered reader before target) (description : String) :
    Gathers gathered (reader.expecting description) before target :=
  Yields.expecting gathers description

theorem committed (gathers : Gathers gathered reader before target) :
    Gathers gathered reader.committed before target :=
  Yields.committed gathers

variable [Additive gathered]

theorem succeed {value : α} (same : before = target value) :
    Gathers gathered (Reader.succeed value) before target := by
  refine (Yields.succeed value).mono fun taken found => ?_
  rintro ⟨rfl, rfl⟩
  exact ⟨[], Additive.nil, (List.append_nil before).trans same⟩

theorem andThen {next : α → Reader β} {whole : β → List γ}
    (head : Gathers gathered reader [] target)
    (tail : ∀ value, Gathers gathered (next value) (before ++ target value) whole) :
    Gathers gathered (reader.andThen next) before whole := by
  refine (Yields.andThen head.yields tail).mono fun taken result => ?_
  rintro ⟨value, front, back, rfl, first, own, second, same⟩
  exact ⟨target value ++ own, Additive.append first second, by rw [← same, List.append_assoc]⟩

theorem optional (gathers : Gathers gathered reader [] target) :
    Gathers gathered reader.optional [] fun found => (found.map target).getD [] := by
  refine .of_yields ((Yields.optional gathers.yields).mono fun taken found => ?_)
  rintro (⟨rfl, rfl⟩ | ⟨value, rfl, holds⟩)
  · exact Additive.nil
  · exact holds

theorem of_each {taken : List Lexeme} {values : List α}
    (each : Each (fun taken value => gathered taken (target value)) taken values) :
    gathered taken (values.flatMap target) := by
  induction each with
  | nil => exact Additive.nil
  | cons head _ ih => exact Additive.append head ih

theorem many (gathers : Gathers gathered reader [] target) :
    Gathers gathered (Reader.many reader) [] fun values => values.flatMap target :=
  .of_yields ((Yields.many gathers.yields).mono fun _ _ each => of_each each)

/-- Items with signs between them, of which something may be gathered as well. -/
theorem separated {separator : Reader Unit} {sign : List γ} {whole : List α → List γ}
    (item : Gathers gathered reader [] target)
    (between : Gathers gathered separator [] fun _ => sign)
    (same : ∀ first others, target first ++ others.flatMap (fun value => sign ++ target value) =
      whole (first :: others)) :
    Gathers gathered (Reader.separated reader separator) [] whole := by
  have later : Gathers gathered (separator.andThen fun _ => reader) []
      fun value => sign ++ target value :=
    between.andThen fun _ => item.behind sign
  exact item.andThen fun first => later.many.andThen fun others => .succeed (same first others)

end Gathers

end Railroad.Reader
