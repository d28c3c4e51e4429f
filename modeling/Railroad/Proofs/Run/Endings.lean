import Railroad.Proofs.Run.Interleaving

/-!
# Endings of runs

A run prepares the files and lets its workers take turns until all of them are done.  The order of
the turns is not told, so a run can end in many ways; they are the same but for the faults of inputs
that are missing before the run and that an output comes to stand in the way of.
-/

namespace Railroad

open Worker (settle)

section Runs

variable {m : Type → Type} [Monad m]

/-- Takes all steps, one after another. -/
def Worker.finish (disk : Disk m) (setup : Job.Setup) (worker : Worker) : m Worker := do
  let read ← worker.step disk setup
  let shown ← read.step disk setup
  shown.step disk setup

/-- A run that does one job after another, in the order of the inputs. -/
def runInTurn (disk : Disk m) (platformFile : Option String) (arguments : Arguments) :
    m (Except RunFailure Unit) := do
  match ← prepare disk platformFile arguments with
  | .error failure => pure (.error (.setup failure))
  | .ok setup => pure (summary (← (workersOf arguments.inputs).mapM (Worker.finish disk setup)))

end Runs

/-- How a run on files in memory can end. -/
inductive Ends (platformFile : Option String) (arguments : Arguments) (files : Files) :
    Except RunFailure Unit × Files → Prop where
  | setup {failure : Failure} {after : Files}
      (failed : (prepare Disk.inMemory platformFile arguments).run files = (.error failure, after)) :
      Ends platformFile arguments files (.error (.setup failure), after)
  | inputs {setup : Job.Setup} {ready after : Files} {workers : List Worker}
      (prepared : (prepare Disk.inMemory platformFile arguments).run files = (.ok setup, ready))
      (turns : Interleaving setup (workersOf arguments.inputs, ready) (workers, after))
      (ended : AllEnded workers) : Ends platformFile arguments files (summary workers, after)

theorem Settings.firstPresent_run (paths : List String) (files : Files) :
    ((firstPresent Disk.inMemory paths).run files).2 = files := by
  induction paths with
  | nil => rfl
  | cons path rest ih =>
      simp only [firstPresent, Disk.inMemory, bind, StateT.bind, pure, StateT.run]
      split
      · rfl
      · exact ih

theorem Settings.locate_run (named platformFile : Option String) (files : Files) :
    ((locate Disk.inMemory named platformFile).run files).2 = files := by
  cases named with
  | none => exact firstPresent_run (localFile :: platformFile.toList) files
  | some path =>
      simp only [locate, Disk.inMemory, bind, StateT.bind, pure, StateT.run]
      split <;> rfl

theorem Settings.load_run (named platformFile : Option String) (files : Files) :
    ((load Disk.inMemory named platformFile).run files).2 = files := by
  have located := locate_run named platformFile files
  simp only [load, bind, StateT.bind, pure, StateT.run] at located ⊢
  generalize locate Disk.inMemory named platformFile files = found at located ⊢
  obtain ⟨path?, kept⟩ := found
  obtain rfl : kept = files := located
  rcases path? with fault | _ | path
  · rfl
  · rfl
  · simp only [Disk.inMemory, StateT.bind]
    cases kept.readText path <;> rfl

/-- What the workers of a run have in common. -/
def Arguments.setup (arguments : Arguments) (settings : Settings) : Job.Setup where
  settings
  root := arguments.root
  outputDirectory := arguments.outputDirectory
  writesSpecification := arguments.writesSpecification

theorem prepare_run (platformFile : Option String) (arguments : Arguments) (files : Files) :
    (prepare Disk.inMemory platformFile arguments).run files =
      match ((Settings.load Disk.inMemory arguments.settingsFile platformFile).run files).1 with
      | .error failure => (.error failure, files)
      | .ok settings =>
          match files.createDirectories arguments.outputDirectory with
          | .error fault => (.error (.disk fault), files)
          | .ok changed => (.ok (arguments.setup settings), changed) := by
  have loaded := Settings.load_run arguments.settingsFile platformFile files
  simp only [prepare, bind, StateT.bind, pure, StateT.run] at loaded ⊢
  generalize Settings.load Disk.inMemory arguments.settingsFile platformFile files = found
    at loaded ⊢
  obtain ⟨settings, kept⟩ := found
  obtain rfl : kept = files := loaded
  cases settings with
  | error failure => rfl
  | ok settings =>
      simp only [Disk.inMemory, Disk.applying, StateT.bind]
      cases kept.createDirectories arguments.outputDirectory <;> rfl

theorem prepare_furnished {platformFile : Option String} {arguments : Arguments}
    {files ready : Files} {prepared : Except Failure Job.Setup} (tree : files.IsTree)
    (done : (prepare Disk.inMemory platformFile arguments).run files = (prepared, ready)) :
    Files.Furnished files ready ∧ ready.IsTree := by
  rw [prepare_run] at done
  split at done
  · cases done
    exact ⟨.refl _, tree⟩
  · split at done
    next =>
      cases done
      exact ⟨.refl _, tree⟩
    next made =>
      cases done
      exact Files.createDirectories_furnished tree made

theorem prepare_setup {platformFile : Option String} {arguments : Arguments}
    {files ready : Files} {setup : Job.Setup}
    (done : (prepare Disk.inMemory platformFile arguments).run files = (.ok setup, ready)) :
    setup = arguments.setup setup.settings := by
  rw [prepare_run] at done
  split at done
  · cases done
  · split at done <;> cases done
    rfl

namespace Interleaving

variable {setup : Job.Setup}

theorem step (front back : List Worker) (worker : Worker) (files : Files) :
    Interleaving setup (front ++ worker :: back, files)
      (front ++ ((worker.step Disk.inMemory setup).run files).1 :: back,
        ((worker.step Disk.inMemory setup).run files).2) :=
  .turn (.stop _)

theorem finish (front back : List Worker) (worker : Worker) (files : Files) :
    Interleaving setup (front ++ worker :: back, files)
      (front ++ ((worker.finish Disk.inMemory setup).run files).1 :: back,
        ((worker.finish Disk.inMemory setup).run files).2) :=
  .turn (.turn (.turn (.stop _)))

/-- Workers that act one after another take their turns in this order. -/
theorem mapM {act : Worker → StateM Files Worker}
    (acts : ∀ front back worker files, Interleaving setup (front ++ worker :: back, files)
      (front ++ ((act worker).run files).1 :: back, ((act worker).run files).2))
    (front workers : List Worker) (files : Files) :
    Interleaving setup (front ++ workers, files)
      (front ++ ((workers.mapM act).run files).1, ((workers.mapM act).run files).2) := by
  induction workers generalizing front files with
  | nil => exact .stop _
  | cons worker rest ih =>
      have here := acts front rest worker files
      have later := ih (front ++ [((act worker).run files).1]) ((act worker).run files).2
      rw [List.append_assoc, List.append_assoc] at later
      rw [List.mapM_cons]
      exact here.trans later

end Interleaving

/-- What each act brings about holds of all workers afterwards. -/
theorem mapM_forall {act : Worker → StateM Files Worker} {before after : Worker → Prop}
    (acts : ∀ worker files, before worker → after ((act worker).run files).1)
    {workers : List Worker} (all : ∀ worker ∈ workers, before worker) (files : Files) :
    ∀ worker ∈ ((workers.mapM act).run files).1, after worker := by
  induction workers generalizing files with
  | nil => exact fun worker member => absurd member List.not_mem_nil
  | cons worker rest ih =>
      obtain ⟨here, later⟩ := List.forall_mem_cons.mp all
      rw [List.mapM_cons]
      exact List.forall_mem_cons.mpr ⟨acts worker files here, ih later _⟩

/-- What a run comes to if its workers work in the given way. -/
theorem ends_of_work {platformFile : Option String} {arguments : Arguments} {files : Files}
    {work : Job.Setup → List Worker → StateM Files (List Worker)}
    (turns : ∀ setup workers files, Interleaving setup (workers, files)
      ((work setup workers).run files))
    (ended : ∀ setup workers files, AllEnded ((work setup workers).run files).1) :
    Ends platformFile arguments files (StateT.run (do
      match ← prepare Disk.inMemory platformFile arguments with
      | .error failure => pure (.error (.setup failure))
      | .ok setup => pure (summary (← work setup (workersOf arguments.inputs)))) files) := by
  cases done : (prepare Disk.inMemory platformFile arguments).run files with
  | mk prepared ready =>
      simp only [bind, StateT.bind, pure, StateT.run] at done ⊢
      rw [done]
      cases prepared with
      | error failure => exact .setup done
      | ok setup => exact .inputs done (turns setup _ ready) (ended setup _ ready)

theorem Worker.ended_of_left {worker : Worker} (done : worker.stage.left = 0) :
    ∃ outcome, worker.stage = .ended outcome := by
  obtain ⟨input, stage⟩ := worker
  cases stage with
  | ended outcome => exact ⟨outcome, rfl⟩
  | reading | writingPage | writingSpecification => cases done

theorem runInTurn_ends (platformFile : Option String) (arguments : Arguments) (files : Files) :
    Ends platformFile arguments files
      ((runInTurn Disk.inMemory platformFile arguments).run files) := by
  refine ends_of_work (fun setup workers files => ?_) (fun setup workers files worker member => ?_)
  · exact Interleaving.mapM .finish [] workers files
  · have settled : ∀ worker ∈ ((workers.mapM (Worker.finish Disk.inMemory setup)).run files).1,
        worker.stage.left = 0 :=
      mapM_forall (fun worker files (_ : True) => Worker.settle_left setup (worker, files))
        (fun _ _ => trivial) files
    exact Worker.ended_of_left (settled worker member)

theorem run_ends (platformFile : Option String) (arguments : Arguments) (files : Files) :
    Ends platformFile arguments files ((run Disk.inMemory platformFile arguments).run files) := by
  refine ends_of_work (fun setup workers files => ?_) (fun setup workers files => ?_)
  · exact ((Interleaving.mapM .step [] workers files).trans (.mapM .step [] _ _)).trans
      (.mapM .step [] _ _)
  · have round {most : Nat} {workers : List Worker} (files : Files)
        (left : ∀ worker ∈ workers, worker.stage.left ≤ most) :
        ∀ worker ∈ ((workers.mapM (Worker.step Disk.inMemory setup)).run files).1,
          worker.stage.left ≤ most - 1 :=
      mapM_forall (fun worker files bound =>
        (Worker.turn_left setup (worker, files)).trans (Nat.sub_le_sub_right bound 1)) left files
    have all : ∀ worker ∈ workers, worker.stage.left ≤ 3 := fun worker _ => worker.stage.left_le
    intro worker member
    exact Worker.ended_of_left (Nat.le_zero.mp (round _ (round _ (round files all)) worker member))

/-! ## What all endings have in common -/

section Common

variable {platformFile : Option String} {arguments : Arguments} {files after : Files}
  {result : Except RunFailure Unit}

/-- A run ends before its workers begin, or when they have taken all their turns. -/
theorem Ends.cases (tree : files.IsTree)
    (ends : Ends platformFile arguments files (result, after)) :
    (∃ failure, (prepare Disk.inMemory platformFile arguments).run files = (.error failure, after) ∧
        result = .error (.setup failure)) ∨
      ∃ setup ready workers,
        (prepare Disk.inMemory platformFile arguments).run files = (.ok setup, ready) ∧
          Files.Furnished files ready ∧
          Underway setup ready (Job.ofInputs arguments.inputs) (workers, after) ∧
          AllEnded workers ∧ result = summary workers := by
  cases ends with
  | setup failed => exact Or.inl ⟨_, failed, rfl⟩
  | @inputs setup ready _ workers prepared turns ended =>
      obtain ⟨furnished, readyTree⟩ := prepare_furnished tree prepared
      have underway := (Underway.start setup ready (Job.ofInputs arguments.inputs)).interleaving
        readyTree (Job.apart_ofInputs arguments.inputs) turns
      exact Or.inr ⟨setup, ready, workers, prepared, furnished, underway, ended, rfl⟩

/-- Two endings of a run leave the same files and have the same result. -/
theorem Ends.alike (tree : files.IsTree) {other : Except RunFailure Unit} {afterToo : Files}
    (ends : Ends platformFile arguments files (result, after))
    (endsToo : Ends platformFile arguments files (other, afterToo)) :
    (∀ place, after.node? place = afterToo.node? place) ∧ SameResult files after result other := by
  rcases ends.cases tree with
    ⟨failure, failed, rfl⟩ | ⟨setup, ready, workers, prepared, furnished, underway, ended, rfl⟩
  · rcases endsToo.cases tree with ⟨_, failedToo, rfl⟩ | ⟨_, _, _, preparedToo, -⟩
    · cases failed.symm.trans failedToo
      exact ⟨fun _ => rfl, .setup failure⟩
    · cases failed.symm.trans preparedToo
  · rcases endsToo.cases tree with
      ⟨_, failedToo, -⟩ | ⟨_, _, others, preparedToo, -, underwayToo, endedToo, rfl⟩
    · cases prepared.symm.trans failedToo
    · cases prepared.symm.trans preparedToo
      exact ⟨underway.nodes underwayToo ended endedToo,
        summary_alike (underway.failures furnished underwayToo ended endedToo)⟩

theorem summary_eq_inputs {workers : List Worker} {failures : List (String × Failure)}
    {total : Nat} :
    summary workers = .error (.inputs failures total) ↔
      failures = workers.filterMap Worker.failure? ∧ failures ≠ [] ∧ total = workers.length := by
  rw [summary]
  constructor
  · intro failed
    split at failed
    next => cases failed
    next some =>
      cases failed
      exact ⟨rfl, fun none => some (List.isEmpty_iff.mpr none), rfl⟩
  · rintro ⟨rfl, some, rfl⟩
    rw [if_neg fun none => some (List.isEmpty_iff.mp none)]

theorem failures_sublist (workers : List Worker) :
    ((workers.filterMap Worker.failure?).map Prod.fst).Sublist (workers.map Worker.input) := by
  induction workers with
  | nil => exact .slnil
  | cons worker rest ih =>
      rw [List.filterMap_cons, List.map_cons]
      split
      next => exact ih.cons _
      next failed found =>
        have input : failed.1 = worker.input := by
          unfold Worker.failure? at found
          split at found <;> cases found
          rfl
        rw [List.map_cons, input]
        exact ih.cons_cons _

/-- The failures of a run are those of its inputs, in their order. -/
theorem Ends.failures_inOrder (tree : files.IsTree) {failures : List (String × Failure)}
    {total : Nat}
    (ends : Ends platformFile arguments files (.error (.inputs failures total), after)) :
    total = arguments.inputs.length ∧ (failures.map Prod.fst).Sublist arguments.inputs := by
  rcases ends.cases tree with ⟨_, -, same⟩ | ⟨_, _, workers, -, -, underway, -, same⟩
  · cases same
  · obtain ⟨rfl, -, rfl⟩ := summary_eq_inputs.mp same.symm
    have inputs := underway.inputs.trans (Job.ofInputs_inputs arguments.inputs)
    rw [← inputs, List.length_map]
    exact ⟨rfl, failures_sublist workers⟩

theorem stems_nodup (inputs : List String) :
    ((workersOf inputs).filterMap fun worker => worker.stage.stem?).Nodup := by
  have stem {job : Job} {stem : String} (left : (Worker.ofJob job).stage.stem? = some stem) :
      job.stem = .ok stem := (Worker.ofJob_does job).stem stem left
  rw [workersOf, List.filterMap_map]
  refine (Job.claimAll_pairwise .empty inputs).filterMap _ fun first second apart own given other
    givenToo => ?_
  rintro rfl
  exact apart own (stem given) (stem givenToo)

/-- An input whose stem is taken fails before anything is done. -/
theorem workersOf_taken {before rest : List String} {input first : String}
    (taken : before.find? (fun other => outputStem other == outputStem input) = some first) :
    (workersOf (before ++ input :: rest))[before.length]? = some ⟨input,
      .ended (.error (.disk (.outputTaken (pageName (outputStem input)) first)))⟩ := by
  rw [workersOf, List.getElem?_map, Job.ofInputs_taken taken]
  rfl

theorem Worker.step_ended {m : Type → Type} [Monad m] [LawfulMonad m] (disk : Disk m)
    (setup : Job.Setup) (input : String) (outcome : Except Failure Unit) :
    Worker.step disk setup ⟨input, .ended outcome⟩ = pure ⟨input, .ended outcome⟩ := by
  rw [Worker.step, Stage.next, pure_bind]

theorem Ends.mem_of_taken (tree : files.IsTree)
    (ends : Ends platformFile arguments files (result, after)) {before rest : List String}
    {input first : String} (split : arguments.inputs = before ++ input :: rest)
    (taken : before.find? (fun other => outputStem other == outputStem input) = some first) :
    (∃ failure, result = .error (.setup failure)) ∨
      ∃ failures total, result = .error (.inputs failures total) ∧
        (input, .disk (.outputTaken (pageName (outputStem input)) first)) ∈ failures := by
  rcases ends.cases tree with
    ⟨failure, -, same⟩ | ⟨setup, ready, workers, -, -, underway, ended, rfl⟩
  · exact Or.inl ⟨failure, same⟩
  · have member := List.mem_of_getElem? (split ▸ Job.ofInputs_taken taken)
    obtain ⟨worker, present, follows⟩ := underway.exists_worker member
    have failed : (input, .disk (.outputTaken (pageName (outputStem input)) first)) ∈
        workers.filterMap Worker.failure? := by
      refine List.mem_filterMap.mpr ⟨worker, present, ?_⟩
      rw [follows.taken (ended worker present) rfl]
      rfl
    exact Or.inr ⟨_, _, summary_eq_inputs.mpr ⟨rfl, List.ne_nil_of_mem failed, rfl⟩, failed⟩

end Common

/--
Workers do not interfere.  A run has the endings of its workers' turns in any order, and so has the
run that does one job after another: all leave the same files and have the same result, but for the
fault of an input that is missing before the run and that a file of the run stands in the way of.
The failures are in the order of the inputs and are counted against all of them.  No two workers
have the same stem, and an input whose stem belongs to an earlier one fails, naming the first that
has it, without being read.
-/
theorem run_interleaved {files : Files} (tree : files.IsTree) (platformFile : Option String)
    (arguments : Arguments) :
    Ends platformFile arguments files ((run Disk.inMemory platformFile arguments).run files) ∧
    (∀ result after, Ends platformFile arguments files (result, after) →
      let inTurn := (runInTurn Disk.inMemory platformFile arguments).run files
      (∀ place, after.node? place = inTurn.2.node? place) ∧
        SameResult files after result inTurn.1 ∧
        ∀ failures total, result = .error (.inputs failures total) →
          total = arguments.inputs.length ∧ (failures.map Prod.fst).Sublist arguments.inputs) ∧
    ((workersOf arguments.inputs).filterMap fun worker => worker.stage.stem?).Nodup ∧
    ∀ before input rest first, arguments.inputs = before ++ input :: rest →
      before.find? (fun other => outputStem other == outputStem input) = some first →
      ∃ worker, (workersOf arguments.inputs)[before.length]? = some worker ∧
        worker.failure? =
          some (input, .disk (.outputTaken (pageName (outputStem input)) first)) ∧
        (∀ (m : Type → Type) [Monad m] [LawfulMonad m] (disk : Disk m) (setup : Job.Setup),
          worker.step disk setup = pure worker) ∧
        ∀ result after, Ends platformFile arguments files (result, after) →
          (∃ failure, result = .error (.setup failure)) ∨
            ∃ failures total, result = .error (.inputs failures total) ∧
              (input, .disk (.outputTaken (pageName (outputStem input)) first)) ∈ failures := by
  refine ⟨run_ends platformFile arguments files, fun result after ends => ?_,
    stems_nodup arguments.inputs, fun before input rest first split taken => ?_⟩
  · obtain ⟨nodes, same⟩ := ends.alike tree (runInTurn_ends platformFile arguments files)
    refine ⟨nodes, same, ?_⟩
    rintro failures total rfl
    exact ends.failures_inOrder tree
  · exact ⟨_, split ▸ workersOf_taken taken, rfl, fun m _ _ disk setup =>
      Worker.step_ended disk setup input _,
      fun result after ends => ends.mem_of_taken tree split taken⟩

/-- One file, whose page stands in the way of the second input. -/
def crossedFiles : Files where
  nodes := ⟨[(Place.root.child "a.g4", .file "grammar a; b : 'c' ;".toUTF8)]⟩
  workingDirectory := .root

def crossedArguments : Arguments where
  inputs := ["a.g4", "out/a.html/b.g4", "./a.g4"]
  outputDirectory := "out"
  root := none
  writesSpecification := false
  settingsFile := none
  logLevel := "info"

theorem crossedFiles_isTree : crossedFiles.IsTree := by
  refine ⟨rfl, fun place member => ?_⟩
  obtain rfl : place = Place.root.child "a.g4" := List.mem_singleton.mp member
  rfl

theorem run_interleaved_crossed :
    Ends none crossedArguments crossedFiles
      ((run Disk.inMemory none crossedArguments).run crossedFiles) ∧
    (∀ result after, Ends none crossedArguments crossedFiles (result, after) →
      let inTurn := (runInTurn Disk.inMemory none crossedArguments).run crossedFiles
      (∀ place, after.node? place = inTurn.2.node? place) ∧
        SameResult crossedFiles after result inTurn.1 ∧
        ∀ failures total, result = .error (.inputs failures total) →
          total = 3 ∧ (failures.map Prod.fst).Sublist ["a.g4", "out/a.html/b.g4", "./a.g4"]) ∧
    ((workersOf crossedArguments.inputs).filterMap fun worker => worker.stage.stem?).Nodup ∧
    ∃ worker, (workersOf crossedArguments.inputs)[2]? = some worker ∧
      worker.failure? = some ("./a.g4", .disk (.outputTaken "a.html" "a.g4")) ∧
      (∀ (m : Type → Type) [Monad m] [LawfulMonad m] (disk : Disk m) (setup : Job.Setup),
        worker.step disk setup = pure worker) ∧
      ∀ result after, Ends none crossedArguments crossedFiles (result, after) →
        (∃ failure, result = .error (.setup failure)) ∨
          ∃ failures total, result = .error (.inputs failures total) ∧
            ("./a.g4", .disk (.outputTaken "a.html" "a.g4")) ∈ failures := by
  obtain ⟨isEnding, alike, stems, taken⟩ :=
    run_interleaved crossedFiles_isTree none crossedArguments
  exact ⟨isEnding, alike, stems,
    taken ["a.g4", "out/a.html/b.g4"] "./a.g4" [] "a.g4" rfl (by decide +kernel)⟩

/-- The messages of the failures of a run. -/
def messagesOf : Except RunFailure Unit → List String
  | .ok () => []
  | .error failure => failure.failures.map fun failed => failed.2.message

theorem run_order_observed :
    crossedFiles.IsTree ∧
    Ends none crossedArguments crossedFiles
      ((run Disk.inMemory none crossedArguments).run crossedFiles) ∧
    Ends none crossedArguments crossedFiles
      ((runInTurn Disk.inMemory none crossedArguments).run crossedFiles) ∧
    ((run Disk.inMemory none crossedArguments).run crossedFiles).1 ≠
      ((runInTurn Disk.inMemory none crossedArguments).run crossedFiles).1 := by
  refine ⟨crossedFiles_isTree, run_ends .., runInTurn_ends .., fun same => ?_⟩
  have messages : messagesOf ((run Disk.inMemory none crossedArguments).run crossedFiles).1 ≠
      messagesOf ((runInTurn Disk.inMemory none crossedArguments).run crossedFiles).1 := by
    decide +kernel
  exact messages (congrArg messagesOf same)

end Railroad
