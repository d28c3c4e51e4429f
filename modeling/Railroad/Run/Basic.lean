import Railroad.Run.Worker
import Railroad.Settings.Load

/-!
# Runs

A run loads its settings, makes the directory of its outputs and lets a worker do the job of each
input.  A job that fails does not keep the others from being done.
-/

namespace Railroad

/-- Why a run did not succeed. -/
inductive RunFailure where
  /-- Nothing was begun. -/
  | setup (failure : Failure)
  /-- Some inputs failed, out of `total`. -/
  | inputs (failures : List (String × Failure)) (total : Nat)

namespace RunFailure

def message : RunFailure → String
  | setup failure => failure.message
  | inputs failures total =>
      toString failures.length ++ " of " ++ toString total ++ " grammar file(s) failed"

/-- All failures, each with the input that it belongs to. -/
def failures : RunFailure → List (Option String × Failure)
  | setup failure => [(none, failure)]
  | inputs failures _ => failures.map fun (input, failure) => (some input, failure)

end RunFailure

/-- What all workers add up to once they are done. -/
def summary (workers : List Worker) : Except RunFailure Unit :=
  let failures := workers.filterMap Worker.failure?
  if failures.isEmpty then .ok () else .error (.inputs failures workers.length)

variable {m : Type → Type} [Monad m]

/-- Loads the settings and makes the directory of the outputs. -/
def prepare (disk : Disk m) (platformFile : Option String) (arguments : Arguments) :
    m (Except Failure Job.Setup) := do
  match ← Settings.load disk arguments.settingsFile platformFile with
  | .error fault => pure (.error fault)
  | .ok settings =>
      match ← disk.createDirectories arguments.outputDirectory with
      | .error fault => pure (.error (.disk fault))
      | .ok () => pure (.ok {
          settings
          root := arguments.root
          outputDirectory := arguments.outputDirectory
          writesSpecification := arguments.writesSpecification })

/-- Lets the workers work side by side: all inputs are read before the first page is written. -/
def workAll (disk : Disk m) (setup : Job.Setup) (workers : List Worker) : m (List Worker) := do
  let read ← workers.mapM (Worker.step disk setup)
  let shown ← read.mapM (Worker.step disk setup)
  shown.mapM (Worker.step disk setup)

/-- The workers of the inputs before their first steps. -/
def workersOf (inputs : List String) : List Worker := (Job.ofInputs inputs).map Worker.ofJob

/-- Does what the arguments ask for. -/
def run (disk : Disk m) (platformFile : Option String) (arguments : Arguments) :
    m (Except RunFailure Unit) := do
  match ← prepare disk platformFile arguments with
  | .error failure => pure (.error (.setup failure))
  | .ok setup => pure (summary (← workAll disk setup (workersOf arguments.inputs)))

end Railroad
