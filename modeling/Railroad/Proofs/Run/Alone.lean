import Railroad.Proofs.Run.Turns

/-!
# Workers on their own

A worker among others does what it would do on its own: it comes to the same stages and writes the
same outputs.  The one thing that others can change is how a missing input fails, where an output
of theirs stands in its way.
-/

namespace Railroad

namespace Worker

/-- The number of turns that a worker takes at most. -/
def Stage.left : Stage → Nat
  | .reading _ => 3
  | .writingPage _ _ => 2
  | .writingSpecification _ _ => 1
  | .ended _ => 0

variable {setup : Job.Setup}

theorem Stage.left_le (stage : Stage) : stage.left ≤ 3 := by
  unfold left
  split <;> decide

theorem turn_left (setup : Job.Setup) (state : Worker × Files) :
    (turn setup state).1.stage.left ≤ state.1.stage.left - 1 := by
  obtain ⟨⟨input, stage⟩, files⟩ := state
  cases stage with
  | reading stem =>
      rw [turn_reading]
      unfold Stage.ofText
      split
      · exact Nat.zero_le _
      · split
        · exact Nat.zero_le _
        · exact Nat.le_refl _
  | writingPage stem page =>
      rw [turn_writingPage]
      split
      · exact Nat.zero_le _
      · exact Nat.le_refl _
  | writingSpecification stem page =>
      rw [turn_writingSpecification]
      split
      · split <;> exact Nat.le_refl _
      · exact Nat.le_refl _
  | ended outcome => exact Nat.le_refl _

theorem turn_ne_reading (setup : Job.Setup) (state : Worker × Files) (stem : String) :
    (turn setup state).1.stage ≠ .reading stem := by
  intro reading
  have left := turn_left setup state
  have most := state.1.stage.left_le
  have three : (Stage.reading stem).left = 3 := rfl
  rw [reading, three] at left
  omega

theorem turn_done {state : Worker × Files} (done : state.1.stage.left = 0) :
    turn setup state = state := by
  obtain ⟨⟨input, stage⟩, files⟩ := state
  cases stage with
  | ended outcome => rfl
  | reading | writingPage | writingSpecification => cases done

/-- A worker takes all its turns. -/
def settle (setup : Job.Setup) (state : Worker × Files) : Worker × Files :=
  turn setup (turn setup (turn setup state))

theorem settle_left (setup : Job.Setup) (state : Worker × Files) :
    (settle setup state).1.stage.left = 0 := by
  have most := state.1.stage.left_le
  have first := turn_left setup state
  have second := turn_left setup (turn setup state)
  have third := turn_left setup (turn setup (turn setup state))
  rw [settle]
  omega

theorem settle_turn (setup : Job.Setup) (state : Worker × Files) :
    settle setup (turn setup state) = settle setup state :=
  turn_done (settle_left setup state)

theorem settle_done {state : Worker × Files} (done : state.1.stage.left = 0) :
    settle setup state = state := by
  rw [settle, turn_done done, turn_done done, turn_done done]

theorem failure?_eq_some {worker : Worker} {input : String} {failure : Failure} :
    worker.failure? = some (input, failure) ↔
      worker.input = input ∧ worker.stage = .ended (.error failure) := by
  unfold failure?
  constructor
  · intro found
    split at found
    next stage =>
      cases found
      exact ⟨rfl, stage⟩
    next => cases found
  · rintro ⟨rfl, stage⟩
    rw [stage]

/-- A worker whose input was missing before the others began fails at an output in its way. -/
structure Blocked (ready files : Files) (worker alone : Worker) : Prop where
  input : worker.input = alone.input
  stage : worker.stage = .ended (.error (.disk .notDirectory))
  stageAlone : alone.stage = .ended (.error (.disk .notFound))
  missing : ready.readText worker.input = .error .notFound
  blocked : files.readText worker.input = .error .notDirectory

namespace Blocked

variable {ready files next : Files} {worker alone : Worker}

theorem grown (blocked : Blocked ready files worker alone) (grown : Files.Grown files next) :
    Blocked ready next worker alone :=
  { blocked with blocked := grown.readText_notDirectory blocked.blocked }

theorem failure?_eq (blocked : Blocked ready files worker alone) :
    worker.failure? = some (worker.input, .disk .notDirectory) := by
  rw [failure?, blocked.stage]

theorem failure?_alone (blocked : Blocked ready files worker alone) :
    alone.failure? = some (worker.input, .disk .notFound) := by
  rw [failure?, blocked.stageAlone, blocked.input]

end Blocked

/-- Before the same step, files that agree on the outputs of a worker stay so, and it does alike. -/
theorem turn_alike {ready files filesAlone : Files} {worker : Worker} {job : Job}
    (tree : ready.IsTree) (proper : job.Proper) (does : worker.Does job)
    (outgrown : Outgrown setup.outputDirectory ready files)
    (outgrownAlone : Outgrown setup.outputDirectory ready filesAlone)
    (fresh : ∀ stem, worker.stage = .reading stem → filesAlone = ready)
    (owned : ∀ place, job.Owns setup.outputDirectory ready place →
      files.node? place = filesAlone.node? place) :
    (∀ place, job.Owns setup.outputDirectory ready place →
      (turn setup (worker, files)).2.node? place =
        (turn setup (worker, filesAlone)).2.node? place) ∧
    ((turn setup (worker, files)).1 = (turn setup (worker, filesAlone)).1 ∨
      Blocked ready (turn setup (worker, files)).2
        (turn setup (worker, files)).1 (turn setup (worker, filesAlone)).1) := by
  obtain ⟨input, stage⟩ := worker
  -- Where an output is written depends on the files before any worker began only.
  have written {path : String} {place : Place} (free : ready.slot path = .ok place)
      (text : String) : ∀ wanted, job.Owns setup.outputDirectory ready wanted →
        (files.put place (.file text.toUTF8)).node? wanted =
          (filesAlone.put place (.file text.toUTF8)).node? wanted := by
    intro wanted owns
    have other := Files.ne_root (Files.slot_eq_ok.mp free).2
    rw [Files.node?_put other, Files.node?_put other, owned wanted owns]
  cases stage with
  | reading stem =>
      have given := does.stem stem rfl
      obtain rfl : filesAlone = ready := fresh stem rfl
      obtain rfl : input = job.input := does.input
      rw [turn_reading, turn_reading]
      refine ⟨owned, ?_⟩
      rcases outgrown.readText_cases tree job.input (fun name place output free =>
        owned place ⟨stem, name, given, proper stem given ▸ output, free⟩) with
        same | ⟨missing, blocked⟩
      · exact Or.inl (by rw [same])
      · refine Or.inr ⟨rfl, ?_, ?_, missing, blocked⟩
        · rw [blocked]
          rfl
        · rw [missing]
          rfl
  | writingPage stem page =>
      have output := proper.isName (does.stem stem rfl) .page
      rw [turn_writingPage, turn_writingPage, outgrown.writeText_join output,
        outgrownAlone.writeText_join output]
      cases free : ready.slot (Path.join setup.outputDirectory (pageName stem)) with
      | error fault => exact ⟨owned, Or.inl rfl⟩
      | ok place => exact ⟨written free page.html, Or.inl rfl⟩
  | writingSpecification stem page =>
      have output := proper.isName (does.stem stem rfl) .specification
      rw [turn_writingSpecification, turn_writingSpecification,
        outgrown.writeText_join output, outgrownAlone.writeText_join output]
      split
      · cases free : ready.slot (Path.join setup.outputDirectory (specificationName stem)) with
        | error fault => exact ⟨owned, Or.inl rfl⟩
        | ok place => exact ⟨written free page.specification, Or.inl rfl⟩
      · exact ⟨owned, Or.inl rfl⟩
  | ended outcome => exact ⟨owned, Or.inl rfl⟩

/-- A worker has come as far among others as on its own. -/
structure Coupled (setup : Job.Setup) (ready : Files) (job : Job) (state alone : Worker × Files) :
    Prop where
  does : state.1.Does job
  doesAlone : alone.1.Does job
  outgrown : Outgrown setup.outputDirectory ready alone.2
  fresh : ∀ stem, alone.1.stage = .reading stem → alone.2 = ready
  owned : ∀ place, job.Owns setup.outputDirectory ready place →
    state.2.node? place = alone.2.node? place
  worker : state.1 = alone.1 ∨ Blocked ready state.2 state.1 alone.1

namespace Coupled

variable {ready files : Files} {job : Job} {state alone : Worker × Files}

theorem start (setup : Job.Setup) (ready : Files) (job : Job) :
    Coupled setup ready job (ofJob job, ready) (ofJob job, ready) :=
  ⟨ofJob_does job, ofJob_does job, .refl _ _, fun _ _ => rfl, fun _ _ => rfl, Or.inl rfl⟩

/-- The turns of other workers do not matter to a worker. -/
theorem other {worker : Worker} {next : Files}
    (coupled : Coupled setup ready job (worker, files) alone) (grown : Files.Grown files next)
    (apart : ∀ place, job.Owns setup.outputDirectory ready place →
      next.node? place = files.node? place) :
    Coupled setup ready job (worker, next) alone where
  does := coupled.does
  doesAlone := coupled.doesAlone
  outgrown := coupled.outgrown
  fresh := coupled.fresh
  owned place owns := (apart place owns).trans (coupled.owned place owns)
  worker := coupled.worker.imp_right fun blocked => blocked.grown grown

/-- Its own turns take it as far as they do on its own. -/
theorem turn (tree : ready.IsTree) (proper : job.Proper)
    (outgrown : Outgrown setup.outputDirectory ready state.2)
    (coupled : Coupled setup ready job state alone) :
    Coupled setup ready job (turn setup state) (turn setup alone) := by
  obtain ⟨worker, files⟩ := state
  obtain ⟨other, filesAlone⟩ := alone
  rcases coupled.worker with same | blocked
  · obtain rfl : worker = other := same
    obtain ⟨owned, same⟩ := turn_alike tree proper coupled.does outgrown coupled.outgrown
      coupled.fresh coupled.owned
    exact {
      does := turn_does setup coupled.does files
      doesAlone := turn_does setup coupled.doesAlone filesAlone
      outgrown := (turn_advances coupled.doesAlone proper coupled.outgrown).outgrown
      fresh := fun stem reading => absurd reading (turn_ne_reading setup _ stem)
      owned
      worker := same }
  · have done : worker.stage.left = 0 := by rw [blocked.stage]; rfl
    have doneAlone : other.stage.left = 0 := by rw [blocked.stageAlone]; rfl
    rw [turn_done done, turn_done doneAlone]
    exact coupled

end Coupled

end Worker

end Railroad
