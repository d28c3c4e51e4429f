import Railroad.Proofs.Reading.Heeds

/-!
# Readers without guards

Repetition and recursion are guarded, so that every reader is total: a loop stops when an item
has taken nothing, and a reader calls itself on shorter input only.  A plan says how a reader is
put together, and a run follows the plan without any guard.  A loop that meets a success without
progress has no run, and neither has a recursion that does not end.  The type of a plan keeps
account of what is sure to be taken, and this is enough for a run on every input.
-/

namespace Railroad

/-- The outcome of reading a list when one value of it has been read before. -/
def Outcome.after {α : Type} (value : α) : Outcome (List α) → Outcome (List α)
  | done values rest => done (value :: values) rest
  | missed setback => missed setback
  | failed setback => failed setback

namespace Reader

variable {γ : Type}

/--
How a reader is put together, with a place in it for what `step` calls.  If the plan is `free`, a
call may come first; behind a lexeme that has been taken, every plan is.  If the plan `takes`,
every success takes a lexeme, and only such a reader may be repeated.
-/
inductive Plan (step : Reader γ → Reader γ) :
    (free takes : Bool) → {α : Type} → (Reader γ → Reader α) → Type 1 where
  | succeed {free : Bool} {α : Type} (value : α) : Plan step free false fun _ => Reader.succeed value
  | accept {free : Bool} {α : Type} (expectation : Expectation) (select : Lexeme → Option α) :
      Plan step free true fun _ => Reader.accept expectation select
  | andThen {free takes more : Bool} {α β : Type} {reader : Reader γ → Reader α}
      {next : α → Reader γ → Reader β} (first : Plan step free takes reader)
      (second : ∀ value, Plan step (takes || free) more (next value)) :
      Plan step free (more || takes) fun call => (reader call).andThen fun value => next value call
  | orElse {free takes more : Bool} {α : Type} {reader other : Reader γ → Reader α}
      (first : Plan step free takes reader) (second : Plan step free more other) :
      Plan step free (takes && more) fun call => (reader call).orElse (other call)
  | optional {free takes : Bool} {α : Type} {reader : Reader γ → Reader α}
      (item : Plan step free takes reader) : Plan step free false fun call => (reader call).optional
  | many {free takes : Bool} {α : Type} {reader : Reader γ → Reader α}
      (item : Plan step free takes reader) (firm : takes = true) :
      Plan step free false fun call => Reader.many (reader call)
  | exhaust {free takes : Bool} {α : Type} {reader : Reader γ → Reader α}
      (item : Plan step free takes reader) (firm : takes = true) :
      Plan step free false fun call => Reader.exhaust (reader call)
  | expecting {free takes : Bool} {α : Type} {reader : Reader γ → Reader α}
      (item : Plan step free takes reader) (description : String) :
      Plan step free takes fun call => (reader call).expecting description
  | committed {free takes : Bool} {α : Type} {reader : Reader γ → Reader α}
      (item : Plan step free takes reader) : Plan step free takes fun call => (reader call).committed
  | call : Plan step true false fun call => call
  | start : Plan step true false fun _ => recursive step

/--
The run of a plan on an input, with its outcome.  A loop goes on behind a success that has taken
something, and there is no rule for one that has not.  A call runs the body on whatever is left.
-/
inductive Runs {step : Reader γ → Reader γ} {leads : Bool} (body : Plan step false leads step) :
    {free takes : Bool} → {α : Type} → {reader : Reader γ → Reader α} →
      Plan step free takes reader → List Lexeme → Outcome α → Prop where
  | succeed {free : Bool} {α : Type} (value : α) (lexemes : List Lexeme) :
      Runs body (.succeed value : Plan step free false _) lexemes (.done value lexemes)
  | accept {free : Bool} {α : Type} (expectation : Expectation) (select : Lexeme → Option α)
      (lexemes : List Lexeme) :
      Runs body (.accept expectation select : Plan step free true _) lexemes
        (Reader.accept expectation select lexemes)
  | andThen {free takes more : Bool} {α β : Type} {reader : Reader γ → Reader α}
      {next : α → Reader γ → Reader β} {first : Plan step free takes reader}
      {second : ∀ value, Plan step (takes || free) more (next value)}
      {lexemes rest : List Lexeme} {value : α} {outcome : Outcome β}
      (head : Runs body first lexemes (.done value rest))
      (tail : Runs body (second value) rest outcome) :
      Runs body (.andThen first second) lexemes outcome
  | andThen_missed {free takes more : Bool} {α β : Type} {reader : Reader γ → Reader α}
      {next : α → Reader γ → Reader β} {first : Plan step free takes reader}
      {second : ∀ value, Plan step (takes || free) more (next value)}
      {lexemes : List Lexeme} {setback : Setback}
      (head : Runs body first lexemes (.missed setback)) :
      Runs body (.andThen first second) lexemes (.missed setback)
  | andThen_failed {free takes more : Bool} {α β : Type} {reader : Reader γ → Reader α}
      {next : α → Reader γ → Reader β} {first : Plan step free takes reader}
      {second : ∀ value, Plan step (takes || free) more (next value)}
      {lexemes : List Lexeme} {setback : Setback}
      (head : Runs body first lexemes (.failed setback)) :
      Runs body (.andThen first second) lexemes (.failed setback)
  | orElse_done {free takes more : Bool} {α : Type} {reader other : Reader γ → Reader α}
      {first : Plan step free takes reader} {second : Plan step free more other}
      {lexemes rest : List Lexeme} {value : α}
      (tried : Runs body first lexemes (.done value rest)) :
      Runs body (.orElse first second) lexemes (.done value rest)
  | orElse_missed {free takes more : Bool} {α : Type} {reader other : Reader γ → Reader α}
      {first : Plan step free takes reader} {second : Plan step free more other}
      {lexemes : List Lexeme} {setback : Setback} {outcome : Outcome α}
      (tried : Runs body first lexemes (.missed setback))
      (instead : Runs body second lexemes outcome) :
      Runs body (.orElse first second) lexemes outcome
  | orElse_failed {free takes more : Bool} {α : Type} {reader other : Reader γ → Reader α}
      {first : Plan step free takes reader} {second : Plan step free more other}
      {lexemes : List Lexeme} {setback : Setback}
      (tried : Runs body first lexemes (.failed setback)) :
      Runs body (.orElse first second) lexemes (.failed setback)
  | optional_done {free takes : Bool} {α : Type} {reader : Reader γ → Reader α}
      {item : Plan step free takes reader}
      {lexemes rest : List Lexeme} {value : α}
      (tried : Runs body item lexemes (.done value rest)) :
      Runs body (.optional item) lexemes (.done (some value) rest)
  | optional_missed {free takes : Bool} {α : Type} {reader : Reader γ → Reader α}
      {item : Plan step free takes reader}
      {lexemes : List Lexeme} {setback : Setback}
      (tried : Runs body item lexemes (.missed setback)) :
      Runs body (.optional item) lexemes (.done none lexemes)
  | optional_failed {free takes : Bool} {α : Type} {reader : Reader γ → Reader α}
      {item : Plan step free takes reader}
      {lexemes : List Lexeme} {setback : Setback}
      (tried : Runs body item lexemes (.failed setback)) :
      Runs body (.optional item) lexemes (.failed setback)
  | many_again {free takes : Bool} {α : Type} {reader : Reader γ → Reader α}
      {item : Plan step free takes reader} {firm : takes = true}
      {lexemes rest : List Lexeme} {value : α} {outcome : Outcome (List α)}
      (here : Runs body item lexemes (.done value rest))
      (shorter : rest.length < lexemes.length) (others : Runs body (.many item firm) rest outcome) :
      Runs body (.many item firm) lexemes (outcome.after value)
  | many_missed {free takes : Bool} {α : Type} {reader : Reader γ → Reader α}
      {item : Plan step free takes reader} {firm : takes = true}
      {lexemes : List Lexeme} {setback : Setback}
      (here : Runs body item lexemes (.missed setback)) :
      Runs body (.many item firm) lexemes (.done [] lexemes)
  | many_failed {free takes : Bool} {α : Type} {reader : Reader γ → Reader α}
      {item : Plan step free takes reader} {firm : takes = true}
      {lexemes : List Lexeme} {setback : Setback}
      (here : Runs body item lexemes (.failed setback)) :
      Runs body (.many item firm) lexemes (.failed setback)
  | exhaust_nil {free takes : Bool} {α : Type} {reader : Reader γ → Reader α}
      {item : Plan step free takes reader} {firm : takes = true} :
      Runs body (.exhaust item firm) [] (.done [] [])
  | exhaust_again {free takes : Bool} {α : Type} {reader : Reader γ → Reader α}
      {item : Plan step free takes reader} {firm : takes = true}
      {lexemes rest : List Lexeme} {value : α} {outcome : Outcome (List α)}
      (here : Runs body item lexemes (.done value rest))
      (shorter : rest.length < lexemes.length)
      (others : Runs body (.exhaust item firm) rest outcome) :
      Runs body (.exhaust item firm) lexemes (outcome.after value)
  | exhaust_missed {free takes : Bool} {α : Type} {reader : Reader γ → Reader α}
      {item : Plan step free takes reader} {firm : takes = true}
      {lexemes : List Lexeme} {setback : Setback}
      (more : lexemes ≠ []) (here : Runs body item lexemes (.missed setback)) :
      Runs body (.exhaust item firm) lexemes (.missed setback)
  | exhaust_failed {free takes : Bool} {α : Type} {reader : Reader γ → Reader α}
      {item : Plan step free takes reader} {firm : takes = true}
      {lexemes : List Lexeme} {setback : Setback}
      (more : lexemes ≠ []) (here : Runs body item lexemes (.failed setback)) :
      Runs body (.exhaust item firm) lexemes (.failed setback)
  | expecting_done {free takes : Bool} {α : Type} {reader : Reader γ → Reader α}
      {item : Plan step free takes reader} {description : String}
      {lexemes rest : List Lexeme} {value : α}
      (run : Runs body item lexemes (.done value rest)) :
      Runs body (.expecting item description) lexemes (.done value rest)
  | expecting_missed {free takes : Bool} {α : Type} {reader : Reader γ → Reader α}
      {item : Plan step free takes reader} {description : String}
      {lexemes : List Lexeme} {setback : Setback}
      (run : Runs body item lexemes (.missed setback)) :
      Runs body (.expecting item description) lexemes
        (.missed { setback with expected := setback.expected ++ [.part description] })
  | expecting_failed {free takes : Bool} {α : Type} {reader : Reader γ → Reader α}
      {item : Plan step free takes reader} {description : String}
      {lexemes : List Lexeme} {setback : Setback}
      (run : Runs body item lexemes (.failed setback)) :
      Runs body (.expecting item description) lexemes
        (.failed { setback with expected := setback.expected ++ [.part description] })
  | committed_done {free takes : Bool} {α : Type} {reader : Reader γ → Reader α}
      {item : Plan step free takes reader}
      {lexemes rest : List Lexeme} {value : α}
      (run : Runs body item lexemes (.done value rest)) :
      Runs body (.committed item) lexemes (.done value rest)
  | committed_missed {free takes : Bool} {α : Type} {reader : Reader γ → Reader α}
      {item : Plan step free takes reader}
      {lexemes : List Lexeme} {setback : Setback}
      (run : Runs body item lexemes (.missed setback)) :
      Runs body (.committed item) lexemes
        (.failed { setback with opened := setback.opened <|> some lexemes.length })
  | committed_failed {free takes : Bool} {α : Type} {reader : Reader γ → Reader α}
      {item : Plan step free takes reader}
      {lexemes : List Lexeme} {setback : Setback}
      (run : Runs body item lexemes (.failed setback)) :
      Runs body (.committed item) lexemes
        (.failed { setback with opened := setback.opened <|> some lexemes.length })
  | call {lexemes : List Lexeme} {outcome : Outcome γ} (run : Runs body body lexemes outcome) :
      Runs body .call lexemes outcome
  | start {lexemes : List Lexeme} {outcome : Outcome γ} (run : Runs body body lexemes outcome) :
      Runs body .start lexemes outcome

variable {α β : Type} {step : Reader γ → Reader γ} {free takes leads : Bool}
  {reader : Reader γ → Reader α}

@[simp]
theorem rest_after (value : α) (outcome : Outcome (List α)) :
    (outcome.after value).rest = outcome.rest := by
  cases outcome <;> rfl

namespace Plan

def map (plan : Plan step free takes reader) (change : α → β) :
    Plan step free takes fun call => (reader call).map change :=
  .andThen plan fun value => .succeed (change value)

def giving (plan : Plan step free takes reader) (value : β) :
    Plan step free takes fun call => (reader call).giving value :=
  plan.map fun _ => value

/-- The items may take nothing, since the separators in front of them do. -/
def separated {separator : Reader γ → Reader Unit} (item : ∀ free, Plan step free takes reader)
    (sign : ∀ free, Plan step free true separator) :
    Plan step free takes fun call => Reader.separated (reader call) (separator call) :=
  .andThen (item free) fun first =>
    .andThen (.many (.andThen (sign (takes || free)) fun _ => item _) (Bool.or_true takes))
      fun others => .succeed (first :: others)

end Plan

namespace Runs

variable {body : Plan step false leads step} {plan : Plan step free takes reader}
  {lexemes rest : List Lexeme} {outcome : Outcome α} {value : α}

/-- Wherever a run stops, what is left is the end of its input. -/
theorem suffix (run : Runs body plan lexemes outcome) : outcome.rest <:+ lexemes := by
  induction run with
  | succeed | optional_missed | many_missed | exhaust_nil => exact List.suffix_rfl
  | accept expectation select lexemes =>
      cases lexemes with
      | nil => exact List.suffix_rfl
      | cons lexeme others =>
          simp only [Reader.accept]
          split
          · exact List.suffix_cons lexeme others
          · exact List.suffix_rfl
  | andThen _ _ ihHead ihTail => exact ihTail.trans ihHead
  | many_again _ _ _ ihHere ihOthers | exhaust_again _ _ _ ihHere ihOthers =>
      rw [rest_after]
      exact ihOthers.trans ihHere
  | orElse_missed _ _ _ ih | exhaust_missed _ _ ih | exhaust_failed _ _ ih => exact ih
  | andThen_missed _ ih | andThen_failed _ ih | orElse_done _ ih | orElse_failed _ ih
  | optional_done _ ih | optional_failed _ ih | many_failed _ ih | expecting_done _ ih
  | expecting_missed _ ih | expecting_failed _ ih | committed_done _ ih | committed_missed _ ih
  | committed_failed _ ih | call _ ih | start _ ih => exact ih

/-- A success has taken a lexeme if the plan says so. -/
theorem progress (run : Runs body plan lexemes outcome) (firm : takes = true)
    (read : outcome = .done value rest) : rest.length < lexemes.length := by
  induction run generalizing rest with
  | accept =>
      obtain ⟨_, rfl, lexeme, rfl, -⟩ := Yields.accept _ _ read
      exact Nat.lt_succ_self _
  | andThen head tail ihHead ihTail =>
      rcases Bool.or_eq_true_iff.mp firm with later | first
      · exact Nat.lt_of_lt_of_le (ihTail later read) head.suffix.length_le
      · subst read
        exact Nat.lt_of_le_of_lt tail.suffix.length_le (ihHead first rfl)
  | orElse_done _ ih => exact ih (Bool.and_eq_true_iff.mp firm).1 read
  | orElse_missed _ _ _ ih => exact ih (Bool.and_eq_true_iff.mp firm).2 read
  | expecting_done _ ih | committed_done _ ih => exact ih firm read
  | succeed | optional_done | optional_missed | many_again | many_missed | exhaust_nil
  | exhaust_again | start | call => cases firm
  | _ => cases read

-- In what follows, `found` is what some reader reads; the run of each part ends as it does.
variable {found : Reader α}

theorem sequence {more : Bool} {next : α → Reader γ → Reader β}
    {second : ∀ value, Plan step (takes || free) more (next value)} {later : α → Reader β}
    (head : Runs body plan lexemes (found lexemes))
    (tail : ∀ value rest, found lexemes = .done value rest →
      Runs body (second value) rest (later value rest)) :
    Runs body (.andThen plan second) lexemes (found.andThen later lexemes) := by
  simp only [Reader.andThen]
  cases read : found lexemes with
  | done value rest => exact .andThen (read ▸ head) (tail value rest read)
  | missed setback => exact .andThen_missed (read ▸ head)
  | failed setback => exact .andThen_failed (read ▸ head)

theorem choice {more : Bool} {other : Reader γ → Reader α} {second : Plan step free more other}
    {instead : Reader α} (tried : Runs body plan lexemes (found lexemes))
    (next : Runs body second lexemes (instead lexemes)) :
    Runs body (.orElse plan second) lexemes (found.orElse instead lexemes) := by
  simp only [Reader.orElse]
  cases read : found lexemes with
  | done value rest => exact .orElse_done (read ▸ tried)
  | missed setback => exact .orElse_missed (read ▸ tried) next
  | failed setback => exact .orElse_failed (read ▸ tried)

theorem option (tried : Runs body plan lexemes (found lexemes)) :
    Runs body (.optional plan) lexemes (found.optional lexemes) := by
  simp only [Reader.optional]
  cases read : found lexemes with
  | done value rest => exact .optional_done (read ▸ tried)
  | missed setback => exact .optional_missed (read ▸ tried)
  | failed setback => exact .optional_failed (read ▸ tried)

theorem expected (run : Runs body plan lexemes (found lexemes)) (description : String) :
    Runs body (.expecting plan description) lexemes (found.expecting description lexemes) := by
  simp only [Reader.expecting]
  cases read : found lexemes with
  | done value rest => exact .expecting_done (read ▸ run)
  | missed setback => exact .expecting_missed (read ▸ run)
  | failed setback => exact .expecting_failed (read ▸ run)

theorem entered (run : Runs body plan lexemes (found lexemes)) :
    Runs body (.committed plan) lexemes (found.committed lexemes) := by
  simp only [Reader.committed]
  cases read : found lexemes with
  | done value rest => exact .committed_done (read ▸ run)
  | missed setback => exact .committed_missed (read ▸ run)
  | failed setback => exact .committed_failed (read ▸ run)

/-- The guard of a loop is not met if every item takes something. -/
theorem repetition (firm : takes = true)
    (each : ∀ rest : List Lexeme, rest.length ≤ lexemes.length → Runs body plan rest (found rest)) :
    Runs body (.many plan firm) lexemes (Reader.many found lexemes) := by
  have here := each lexemes (Nat.le_refl _)
  fun_induction Reader.many found lexemes with
  | case1 lexemes value rest read shorter values final repeated again
  | case2 lexemes value rest read shorter setback repeated again
  | case3 lexemes value rest read shorter setback repeated again =>
      have below (input : List Lexeme) (fits : input.length ≤ rest.length) :
          Runs body plan input (found input) :=
        each input (Nat.le_trans fits (Nat.le_of_lt shorter))
      have others := again below (below rest (Nat.le_refl _))
      rw [repeated] at others
      exact .many_again (read ▸ here) shorter others
  | case4 lexemes value rest read guarded =>
      exact absurd ((read ▸ here).progress firm rfl) guarded
  | case5 lexemes setback read => exact .many_missed (read ▸ here)
  | case6 lexemes setback read => exact .many_failed (read ▸ here)

theorem exhaustion (firm : takes = true)
    (each : ∀ rest : List Lexeme, rest.length ≤ lexemes.length → Runs body plan rest (found rest)) :
    Runs body (.exhaust plan firm) lexemes (Reader.exhaust found lexemes) := by
  have here := each lexemes (Nat.le_refl _)
  fun_induction Reader.exhaust found lexemes with
  | case1 => exact .exhaust_nil
  | case2 lexemes _ value rest read shorter values final repeated again
  | case3 lexemes _ value rest read shorter setback repeated again
  | case4 lexemes _ value rest read shorter setback repeated again =>
      have below (input : List Lexeme) (fits : input.length ≤ rest.length) :
          Runs body plan input (found input) :=
        each input (Nat.le_trans fits (Nat.le_of_lt shorter))
      have others := again below (below rest (Nat.le_refl _))
      rw [repeated] at others
      exact .exhaust_again (read ▸ here) shorter others
  | case5 lexemes _ value rest read guarded =>
      exact absurd ((read ▸ here).progress firm rfl) guarded
  | case6 lexemes more setback read => exact .exhaust_missed more (read ▸ here)
  | case7 lexemes more setback read => exact .exhaust_failed more (read ▸ here)

end Runs

/-! ## Every plan has its run -/

/-- A call may be made on this while a plan runs on the lexemes. -/
def Reaches (free : Bool) (lexemes rest : List Lexeme) : Prop :=
  rest.length < lexemes.length ∨ free = true ∧ rest.length ≤ lexemes.length

section

variable {body : Plan step false leads step} {plan : Plan step free takes reader}
  {call : Reader γ} {lexemes rest input : List Lexeme} {outcome : Outcome α}

namespace Reaches

theorem of_le (reaches : Reaches free rest input) (fits : rest.length ≤ lexemes.length) :
    Reaches free lexemes input := by
  rcases reaches with shorter | ⟨first, within⟩
  · exact Or.inl (Nat.lt_of_lt_of_le shorter fits)
  · exact Or.inr ⟨first, Nat.le_trans within fits⟩

/-- A call that comes behind a lexeme that has been taken is one on shorter input. -/
theorem behind {value : α} (reaches : Reaches (takes || free) rest input)
    (run : Runs body plan lexemes (.done value rest)) : Reaches free lexemes input := by
  rcases reaches with shorter | ⟨reached, within⟩
  · exact Or.inl (Nat.lt_of_lt_of_le shorter run.suffix.length_le)
  · rcases Bool.or_eq_true_iff.mp reached with firm | first
    · exact Or.inl (Nat.lt_of_le_of_lt within (run.progress firm rfl))
    · exact Or.inr ⟨first, Nat.le_trans within run.suffix.length_le⟩

/-- The body calls on shorter input only. -/
theorem shorter (reaches : Reaches false lexemes rest) : rest.length < lexemes.length := by
  rcases reaches with shorter | ⟨first, -⟩
  · exact shorter
  · cases first

theorem below_eq (reaches : Reaches false lexemes rest) (reader : Reader α) :
    below lexemes.length reader rest = reader rest :=
  if_pos reaches.shorter

end Reaches

/-- A plan runs if every call that may be made reads as the recursion does, along a run. -/
theorem Plan.runs_of (plan : Plan step free takes reader)
    (answers : ∀ rest, Reaches free lexemes rest →
      call rest = recursive step rest ∧ Runs body body rest (recursive step rest)) :
    Runs body plan lexemes (reader call lexemes) := by
  induction plan generalizing lexemes with
  | succeed value => exact .succeed value lexemes
  | accept expectation select => exact .accept expectation select lexemes
  | andThen first second ihFirst ihSecond =>
      have head := ihFirst answers
      refine head.sequence fun value rest read => ihSecond value fun input reaches => ?_
      rw [read] at head
      exact answers input (reaches.behind head)
  | orElse first second ihFirst ihSecond => exact (ihFirst answers).choice (ihSecond answers)
  | optional item ih => exact (ih answers).option
  | many item firm ih =>
      exact .repetition firm fun rest fits => ih fun input reaches =>
        answers input (reaches.of_le fits)
  | exhaust item firm ih =>
      exact .exhaustion firm fun rest fits => ih fun input reaches =>
        answers input (reaches.of_le fits)
  | expecting item description ih => exact (ih answers).expected description
  | committed item ih => exact (ih answers).entered
  | call =>
      obtain ⟨same, run⟩ := answers lexemes (Or.inr ⟨rfl, Nat.le_refl _⟩)
      rw [← same] at run
      exact .call run
  | start => exact .start (answers lexemes (Or.inr ⟨rfl, Nat.le_refl _⟩)).2

/-- The body has a run on every input, since it calls itself on shorter input only. -/
theorem Plan.body_runs (body : Plan step false leads step) (lexemes : List Lexeme) :
    Runs body body lexemes (recursive step lexemes) := by
  induction size : lexemes.length using Nat.strongRecOn generalizing lexemes with
  | ind size ih =>
      rw [recursive_eq]
      refine runs_of body fun rest reaches => ⟨reaches.below_eq _, ?_⟩
      exact ih rest.length (size ▸ reaches.shorter) rest rfl

theorem Plan.runs (plan : Plan step free takes reader) (body : Plan step false leads step)
    (lexemes : List Lexeme) : Runs body plan lexemes (reader (recursive step) lexemes) :=
  runs_of plan fun rest _ => ⟨rfl, body_runs body rest⟩

/-- A run has no other outcome than the reader with its guards. -/
theorem Runs.outcome_eq (run : Runs body plan lexemes outcome)
    (same : ∀ rest, Reaches free lexemes rest → call rest = recursive step rest) :
    outcome = reader call lexemes := by
  induction run generalizing call with
  | succeed | accept => rfl
  | andThen head tail ihHead ihTail =>
      have later := ihTail fun input reaches => same input (reaches.behind head)
      simpa only [Reader.andThen, ← ihHead same] using later
  | andThen_missed _ ih | andThen_failed _ ih => simp only [Reader.andThen, ← ih same]
  | orElse_done _ ih | orElse_failed _ ih => simp only [Reader.orElse, ← ih same]
  | orElse_missed _ _ ihTried ihInstead =>
      simpa only [Reader.orElse, ← ihTried same] using ihInstead same
  | optional_done _ ih | optional_missed _ ih | optional_failed _ ih =>
      simp only [Reader.optional, ← ih same]
  | many_again _ shorter _ ihHere ihOthers =>
      have others := ihOthers fun input reaches =>
        same input (reaches.of_le (Nat.le_of_lt shorter))
      beta_reduce at others ⊢
      rw [Reader.many]
      simp only [← ihHere same, if_pos shorter, ← others]
      split <;> rfl
  | many_missed _ ih | many_failed _ ih =>
      beta_reduce
      rw [Reader.many]
      simp only [← ih same]
  | exhaust_nil =>
      beta_reduce
      rw [Reader.exhaust, if_pos rfl]
  | exhaust_again _ shorter _ ihHere ihOthers =>
      have others := ihOthers fun input reaches =>
        same input (reaches.of_le (Nat.le_of_lt shorter))
      beta_reduce at others ⊢
      rw [Reader.exhaust, if_neg (List.ne_nil_of_length_pos (Nat.zero_lt_of_lt shorter))]
      simp only [← ihHere same, if_pos shorter, ← others]
      split <;> rfl
  | exhaust_missed more _ ih | exhaust_failed more _ ih =>
      beta_reduce
      rw [Reader.exhaust, if_neg more]
      simp only [← ih same]
  | expecting_done _ ih | expecting_missed _ ih | expecting_failed _ ih =>
      simp only [Reader.expecting, ← ih same]
  | committed_done _ ih | committed_missed _ ih | committed_failed _ ih =>
      simp only [Reader.committed, ← ih same]
  | call _ ih =>
      have round := ih fun rest reaches => reaches.below_eq (recursive step)
      have answer := same _ (Or.inr ⟨rfl, Nat.le_refl _⟩)
      exact round.trans ((recursive_eq step _).symm.trans answer.symm)
  | start _ ih =>
      have round := ih fun rest reaches => reaches.below_eq (recursive step)
      exact round.trans (recursive_eq step _).symm

/-- Without guards, the readers do the same as with them. -/
theorem Plan.runs_iff (plan : Plan step free takes reader) (body : Plan step false leads step) :
    Runs body plan lexemes outcome ↔ outcome = reader (recursive step) lexemes := by
  constructor
  · exact fun run => run.outcome_eq fun _ _ => rfl
  · rintro rfl
    exact runs plan body lexemes

/-- The guard of the recursion is never met. -/
theorem recursive_unguarded (body : Plan step false leads step) :
    recursive step = step (recursive step) :=
  funext fun lexemes => (Plan.body_runs body lexemes).outcome_eq fun _ _ => rfl

end

/-- Every success leaves less than there was. -/
def Advances (reader : Reader α) : Prop :=
  ∀ ⦃lexemes : List Lexeme⦄ ⦃value : α⦄ ⦃rest : List Lexeme⦄,
    reader lexemes = .done value rest → rest.length < lexemes.length

theorem Plan.advances (plan : Plan step free true reader) (body : Plan step false leads step) :
    Advances (reader (recursive step)) :=
  fun lexemes _ _ read => (runs plan body lexemes).progress rfl read

theorem Plan.suffix (plan : Plan step free takes reader) (body : Plan step false leads step)
    (lexemes : List Lexeme) : (reader (recursive step) lexemes).rest <:+ lexemes :=
  (runs plan body lexemes).suffix

theorem optional_restores {reader : Reader α} {lexemes : List Lexeme} {setback : Setback}
    (missed : reader lexemes = .missed setback) : reader.optional lexemes = .done none lexemes := by
  simp only [Reader.optional, missed]

/-- A repetition has ended in front of what its item missed on. -/
theorem many_restores {reader : Reader α} (advances : Advances reader)
    {lexemes rest : List Lexeme} {values : List α}
    (read : Reader.many reader lexemes = .done values rest) :
    ∃ setback, reader rest = .missed setback := by
  fun_induction Reader.many reader lexemes generalizing values with
  | case1 lexemes value middle here shorter others final repeated ih =>
      cases read
      exact ih repeated
  | case4 lexemes value middle here guarded => exact absurd (advances here) guarded
  | case5 lexemes setback missed =>
      cases read
      exact ⟨setback, missed⟩
  | case2 | case3 | case6 => cases read

/-- A separated list has ended in front of a separator, if only the item behind it was missed. -/
theorem separated_restores {item : Reader α} {separator : Reader Unit}
    (advances : Advances (separator.andThen fun _ => item)) {lexemes rest : List Lexeme}
    {values : List α} (read : Reader.separated item separator lexemes = .done values rest) :
    ∃ setback, separator.andThen (fun _ => item) rest = .missed setback := by
  obtain ⟨first, middle, -, read⟩ := andThen_done read
  obtain ⟨others, last, readOthers, read⟩ := andThen_done read
  cases read
  exact many_restores advances readOthers

end Reader

end Railroad
