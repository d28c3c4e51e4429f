import Railroad.Source.Span

/-!
# Diagnostics

A diagnostic says what is wrong with a source text and points at it with labels.  A collector
gathers diagnostics up to a limit; a rejected source is described by the list of them.
-/

namespace Railroad

inductive Severity where
  | error
  | warning
  deriving DecidableEq, Repr

/-- The causes that carry a stable code: those of scanning first, then those of parsing. -/
inductive Code where
  | openString
  | strayCharacter
  | openAction
  | openSet
  | openComment
  | unexpectedToken
  | incompleteInput
  deriving DecidableEq, Repr

namespace Code

/-- The code as it is printed. -/
def id : Code → String
  | openString => "E001"
  | strayCharacter => "E002"
  | openAction => "E003"
  | openSet => "E004"
  | openComment => "E005"
  | unexpectedToken => "E100"
  | incompleteInput => "E101"

/-- What the code stands for. -/
def description : Code → String
  | openString => "unterminated string literal"
  | strayCharacter => "unexpected character"
  | openAction => "unterminated action block"
  | openSet => "unterminated character set"
  | openComment => "unterminated comment"
  | unexpectedToken => "unexpected token"
  | incompleteInput => "incomplete input"

end Code

/-- A label marks the problem itself or what surrounds it. -/
inductive LabelKind where
  | primary
  | secondary
  deriving DecidableEq, Repr

/-- A message that points at a part of the source. -/
structure SourceLabel where
  kind : LabelKind
  span : Span
  message : String
  deriving Repr

/-- The part of `source` that the label points at, empty when the span does not fit it. -/
def SourceLabel.textIn (label : SourceLabel) (source : String) : String :=
  match label.span.slice? source.toList with
  | some cs => String.ofList cs
  | none => ""

/-- One problem found in a source text. -/
structure Diagnostic where
  severity : Severity
  code : Option Code
  message : String
  labels : List SourceLabel
  help : Option String
  deriving Repr

namespace Diagnostic

/-- The problem with its severity and code in front. -/
def display (diagnostic : Diagnostic) : String :=
  let severity := match diagnostic.severity with
    | .error => "error"
    | .warning => "warning"
  match diagnostic.code with
  | some code => severity ++ "[" ++ code.id ++ "]: " ++ diagnostic.message
  | none => severity ++ ": " ++ diagnostic.message

/-- The span of the first primary label. -/
def primarySpan? (diagnostic : Diagnostic) : Option Span :=
  (diagnostic.labels.find? fun label => label.kind == .primary).map SourceLabel.span

end Diagnostic

/-- Why a source text was rejected: its diagnostics in the order they were found. -/
structure Rejection where
  diagnostics : List Diagnostic
  deriving Repr

/-- The first problem, and how many follow it. -/
def Rejection.message (rejection : Rejection) : String :=
  match rejection.diagnostics with
  | [] => "grammar could not be parsed"
  | [only] => only.display
  | first :: others => first.display ++ " (+" ++ toString others.length ++ " more)"

/-- Diagnostics gathered so far and the number at which gathering stops. -/
structure Collector where
  recorded : List Diagnostic
  limit : Nat
  deriving Repr

namespace Collector

/-- The number of problems after which a scan gives up. -/
def defaultLimit : Nat := 50

def withLimit (limit : Nat) : Collector := ⟨[], limit⟩

def isFull (collector : Collector) : Bool := decide (collector.limit ≤ collector.recorded.length)

/-- Records the diagnostic unless the collector is full. -/
def emit (collector : Collector) (diagnostic : Diagnostic) : Collector :=
  if collector.isFull then collector
  else { collector with recorded := collector.recorded ++ [diagnostic] }

/-- Records the diagnostic, and answers whether there is room for another one. -/
def offer (collector : Collector) (diagnostic : Diagnostic) : Bool × Collector :=
  if collector.isFull then (false, collector)
  else
    let next := collector.emit diagnostic
    (!next.isFull, next)

/-- Records one diagnostic after the other, and gives all the answers. -/
def offerAll (collector : Collector) : List Diagnostic → List Bool × Collector
  | [] => ([], collector)
  | diagnostic :: rest =>
      let (answer, next) := collector.offer diagnostic
      let (answers, final) := next.offerAll rest
      (answer :: answers, final)

/-- A source is rejected once any recorded diagnostic is an error. -/
def finish (collector : Collector) : Except Rejection Unit :=
  if collector.recorded.any fun diagnostic => diagnostic.severity == .error then
    .error ⟨collector.recorded⟩
  else .ok ()

end Collector

end Railroad
