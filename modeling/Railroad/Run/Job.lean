import Railroad.Arguments.Basic
import Railroad.Failure
import Railroad.Files.Disk
import Railroad.Page.OfGrammar

/-!
# Jobs

Every input of a run is one job.  Its outputs are named after the stem of the input, which
belongs to the first input that has it.  A job reads its input once, makes a page of it and
writes the page and its specification.
-/

namespace Railroad

/-- The name of the outputs of an input. -/
def outputStem (input : String) : String := (Path.stem? input).getD "grammar"

def pageName (stem : String) : String := stem ++ ".html"

def specificationName (stem : String) : String := stem ++ ".rr"

/-- An input with its stem, unless the stem belongs to an earlier input. -/
structure Job where
  input : String
  stem : Except DiskFault String

namespace Job

/-- The jobs of the inputs, where some stems already belong to earlier ones. -/
def claimAll (claimed : Catalog String String) : List String → List Job
  | [] => []
  | input :: rest =>
      let stem := outputStem input
      match claimed.get? stem with
      | some first =>
          ⟨input, .error (.outputTaken (pageName stem) first)⟩ :: claimAll claimed rest
      | none => ⟨input, .ok stem⟩ :: claimAll (claimed.put stem input) rest

def ofInputs (inputs : List String) : List Job := claimAll .empty inputs

/-- What all jobs of a run have in common. -/
structure Setup where
  settings : Settings
  root : Option String
  outputDirectory : String
  writesSpecification : Bool

variable {m : Type → Type} [Monad m]

/-- Reads the input and makes its page. -/
def readPage (disk : Disk m) (setup : Setup) (input stem : String) :
    m (Except Failure GrammarPage) := do
  match ← disk.readText input with
  | .error fault => pure (.error (.disk fault))
  | .ok source =>
      let renderer := svgRenderer setup.settings.metrics
      match GrammarPage.build setup.settings renderer stem source setup.root with
      | .error rejection => pure (.error (.grammar rejection source))
      | .ok page => pure (.ok page)

/-- Writes one output. -/
def writeOutput (disk : Disk m) (setup : Setup) (name text : String) :
    m (Except Failure Unit) := do
  match ← disk.writeText (Path.join setup.outputDirectory name) text with
  | .error fault => pure (.error (.disk fault))
  | .ok () => pure (.ok ())

def writePage (disk : Disk m) (setup : Setup) (stem : String) (page : GrammarPage) :
    m (Except Failure Unit) :=
  writeOutput disk setup (pageName stem) page.html

/-- Writes the specification where the run asks for it. -/
def writeSpecification (disk : Disk m) (setup : Setup) (stem : String) (page : GrammarPage) :
    m (Except Failure Unit) :=
  if setup.writesSpecification then
    writeOutput disk setup (specificationName stem) page.specification
  else pure (.ok ())

end Job

end Railroad
