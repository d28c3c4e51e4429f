import Railroad.Token.Basic

/-!
# Reading sequences of lexemes

A reader takes a value off the front of a lexeme list.  It may miss, and then another reader can
be tried at the place where it began, or it may fail for good, once a construct has been entered
that nothing else begins like.  Either way it reports what was expected and where the input stood.
Readers are total: repetition and recursion go on only while the input gets shorter.
-/

namespace Railroad

/-- What a reader was looking for. -/
inductive Expectation where
  | token (wanted : Token)
  | part (description : String)
  deriving DecidableEq, Repr

def Expectation.text : Expectation → String
  | token wanted => "expected `" ++ wanted.text ++ "`"
  | part description => "expected " ++ description

/--
Where reading stopped.  `expected` runs from the innermost expectation outwards; `opened` is the
number of lexemes that were left where the innermost entered construct began.
-/
structure Setback where
  expected : List Expectation
  opened : Option Nat
  rest : List Lexeme
  deriving Repr

inductive Outcome (α : Type) where
  | done (value : α) (rest : List Lexeme)
  | missed (setback : Setback)
  | failed (setback : Setback)
  deriving Repr

/-- A reader of values of type `α`. -/
def Reader (α : Type) := List Lexeme → Outcome α

namespace Reader

variable {α β : Type}

def succeed (value : α) : Reader α := fun lexemes => .done value lexemes

def andThen (reader : Reader α) (next : α → Reader β) : Reader β := fun lexemes =>
  match reader lexemes with
  | .done value rest => next value rest
  | .missed setback => .missed setback
  | .failed setback => .failed setback

instance : Monad Reader where
  pure := succeed
  bind := andThen

/-- Changes the value that is read. -/
def map (change : α → β) (reader : Reader α) : Reader β :=
  reader.andThen fun value => succeed (change value)

/-- Puts `value` in the place of what is read. -/
def giving (reader : Reader α) (value : β) : Reader β := reader.map fun _ => value

/-- Takes the next lexeme if `select` has a value for it. -/
def accept (expectation : Expectation) (select : Lexeme → Option α) : Reader α
  | [] => .missed ⟨[expectation], none, []⟩
  | lexeme :: rest =>
      match select lexeme with
      | some value => .done value rest
      | none => .missed ⟨[expectation], none, lexeme :: rest⟩

/-- Takes exactly this token. -/
def token (wanted : Token) : Reader Unit :=
  accept (.token wanted) fun lexeme => if lexeme.token = wanted then some () else none

/-- Tries the second reader where the first began, if the first misses. -/
def orElse (first second : Reader α) : Reader α := fun lexemes =>
  match first lexemes with
  | .missed _ => second lexemes
  | outcome => outcome

/-- A miss takes nothing and leaves no value. -/
def optional (reader : Reader α) : Reader (Option α) := fun lexemes =>
  match reader lexemes with
  | .done value rest => .done (some value) rest
  | .missed _ => .done none lexemes
  | .failed setback => .failed setback

/-- Reads as often as the reader succeeds and takes something; a miss takes nothing. -/
def many (reader : Reader α) (lexemes : List Lexeme) : Outcome (List α) :=
  match reader lexemes with
  | .done value rest =>
      if rest.length < lexemes.length then
        match many reader rest with
        | .done values final => .done (value :: values) final
        | .missed setback => .missed setback
        | .failed setback => .failed setback
      else .done [] lexemes
  | .missed _ => .done [] lexemes
  | .failed setback => .failed setback
termination_by lexemes.length

/-- Reads one item, and further ones after separators; a separator without an item is left. -/
def separated (item : Reader α) (separator : Reader Unit) : Reader (List α) := do
  let first ← item
  let others ← many (do separator; item)
  pure (first :: others)

/-- Reads up to the end of the input; the reader may not miss before it. -/
def exhaust (reader : Reader α) (lexemes : List Lexeme) : Outcome (List α) :=
  if lexemes = [] then .done [] []
  else
    match reader lexemes with
    | .done value rest =>
        if rest.length < lexemes.length then
          match exhaust reader rest with
          | .done values final => .done (value :: values) final
          | .missed setback => .missed setback
          | .failed setback => .failed setback
        else .done [value] rest
    | .missed setback => .missed setback
    | .failed setback => .failed setback
termination_by lexemes.length

/-- Adds what the reader was looking for to its report. -/
def expecting (reader : Reader α) (description : String) : Reader α := fun lexemes =>
  match reader lexemes with
  | .done value rest => .done value rest
  | .missed setback =>
      .missed { setback with expected := setback.expected ++ [.part description] }
  | .failed setback =>
      .failed { setback with expected := setback.expected ++ [.part description] }

/-- Enters a construct: a miss inside it is final. -/
def committed (reader : Reader α) : Reader α := fun lexemes =>
  match reader lexemes with
  | .done value rest => .done value rest
  | .missed setback | .failed setback =>
      .failed { setback with opened := setback.opened <|> some lexemes.length }

/-- A reader that may call itself on shorter input. -/
def recursive (step : Reader α → Reader α) (lexemes : List Lexeme) : Outcome α :=
  step
    (fun inner =>
      if inner.length < lexemes.length then recursive step inner
      else .missed ⟨[], none, inner⟩)
    lexemes
termination_by lexemes.length

@[simp]
theorem bind_eq (reader : Reader α) (next : α → Reader β) : reader >>= next = reader.andThen next :=
  rfl

@[simp]
theorem pure_eq (value : α) : (pure value : Reader α) = succeed value := rfl

end Reader

end Railroad
