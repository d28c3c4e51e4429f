import Railroad.Run.Job

/-!
# Workers

Every job has a worker that does it in three steps: it reads the input and makes its page, it
writes the page, and it writes the specification.  Between its steps the other workers take theirs.
-/

namespace Railroad

/-- What a worker does next. -/
inductive Worker.Stage where
  | reading (stem : String)
  | writingPage (stem : String) (page : GrammarPage)
  | writingSpecification (stem : String) (page : GrammarPage)
  | ended (outcome : Except Failure Unit)

structure Worker where
  input : String
  stage : Worker.Stage

namespace Worker

/-- Nothing is left to do for an input whose stem belongs to an earlier one. -/
def ofJob (job : Job) : Worker where
  input := job.input
  stage :=
    match job.stem with
    | .ok stem => .reading stem
    | .error fault => .ended (.error (.disk fault))

/-- The input with its failure, once the worker has failed. -/
def failure? (worker : Worker) : Option (String × Failure) :=
  match worker.stage with
  | .ended (.error failure) => some (worker.input, failure)
  | _ => none

variable {m : Type → Type} [Monad m]

/-- What comes after a stage. -/
def Stage.next (disk : Disk m) (setup : Job.Setup) (input : String) : Stage → m Stage
  | .reading stem => do
      match ← Job.readPage disk setup input stem with
      | .error failure => pure (.ended (.error failure))
      | .ok page => pure (.writingPage stem page)
  | .writingPage stem page => do
      match ← Job.writePage disk setup stem page with
      | .error failure => pure (.ended (.error failure))
      | .ok () => pure (.writingSpecification stem page)
  | .writingSpecification stem page => do
      pure (.ended (← Job.writeSpecification disk setup stem page))
  | .ended outcome => pure (.ended outcome)

/-- Takes one step.  A worker that is done stays as it is. -/
def step (disk : Disk m) (setup : Job.Setup) (worker : Worker) : m Worker := do
  pure ⟨worker.input, ← worker.stage.next disk setup worker.input⟩

end Worker

end Railroad
