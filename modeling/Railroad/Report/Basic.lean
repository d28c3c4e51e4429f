import Railroad.Failure
import Railroad.Report.Excerpt

/-!
# Reports

A failure is told in reports.  A rejected grammar has one report per diagnostic, each of which
can show an excerpt of the source; every other failure has a single report.
-/

namespace Railroad

/-- A stretch of a source that a report points at. -/
structure ReportLabel where
  message : String
  offset : Nat
  length : Nat
  isPrimary : Bool
  deriving DecidableEq, Repr

/-- A source under the name that is shown above its excerpts. -/
structure NamedSource where
  name : String
  text : String
  deriving DecidableEq, Repr

structure Report where
  message : String
  code : Option String
  help : Option String
  severity : Option Severity
  /-- What the failure goes back to. -/
  cause : Option String
  labels : List ReportLabel
  source : Option NamedSource

/-- The code under which a failure is reported. -/
def Failure.code : Failure → String
  | .disk _ => "railyard::io"
  | .grammar _ _ => "railyard::parse"
  | .drawing _ _ => "railyard::render"
  | .settings _ => "railyard::config"

/-- How a failure may be mended. -/
def Failure.help : Failure → Option String
  | .disk _ => some "check that the grammar file exists and is readable"
  | .settings _ => some "check the [render] and [document] tables of the configuration file"
  | .grammar _ _ | .drawing _ _ => none

/-- What a failure goes back to. -/
def Failure.cause : Failure → Option String
  | .disk fault => some fault.message
  | .drawing _ reason => some reason.message
  | .grammar _ _ | .settings _ => none

namespace Report

def ofLabel (label : SourceLabel) : ReportLabel where
  message := label.message
  offset := label.span.start
  length := label.span.length
  isPrimary := label.kind == .primary

def ofDiagnostic (source : NamedSource) (diagnostic : Diagnostic) : Report where
  message := diagnostic.message
  code := diagnostic.code.map Code.id
  help := diagnostic.help
  severity := some diagnostic.severity
  cause := none
  labels := diagnostic.labels.map ofLabel
  source := some source

/-- The name of a source that was not read from a file. -/
def unnamed : String := "<grammar>"

/-- The single report of a failure, headed by the input that it belongs to. -/
def whole (input : Option String) (failure : Failure) : Report where
  message := input.elim failure.message fun name => name ++ ": " ++ failure.message
  code := some failure.code
  help := failure.help
  severity := none
  cause := failure.cause
  labels := []
  source := none

/-- The reports of a failure. -/
def ofFailure (input : Option String) (failure : Failure) : List Report :=
  match failure with
  | .grammar rejection text =>
      rejection.diagnostics.map (ofDiagnostic ⟨input.getD unnamed, text⟩)
  | _ => [whole input failure]

/-- The excerpt around a label, with as many lines before and after. -/
def excerpt? (source : NamedSource) (label : ReportLabel) (lines : Nat) : Option Excerpt :=
  Excerpt.ofSource? source.text ⟨label.offset, label.length, lines, lines⟩

end Report

end Railroad
