import Railroad.Proofs.Files.Trees
import Railroad.Proofs.Run.Stems
import Railroad.Run.Worker

/-!
# Turns of workers

A worker of a run writes nothing but its own outputs.  So while workers take their turns, the files
grow at places of outputs only, and where an output is written does not depend on what the other
workers have written before.
-/

namespace Railroad

theorem Place.child_inj {first second : Place} {name other : String}
    (same : first.child name = second.child other) : first = second ∧ name = other := by
  have names := congrArg Place.names same
  refine ⟨?_, (List.cons.inj names).1⟩
  rw [← first.parent_child name, same, second.parent_child]

section Outputs

variable {directory name : String} {ready files : Files} {place : Place}

/-- Files that have grown by outputs in a directory. -/
structure Outgrown (directory : String) (ready files : Files) : Prop where
  grown : Files.Grown ready files
  outputs : ∀ place, files.node? place = ready.node? place ∨ ∃ input name,
    IsOutput (outputStem input) name ∧ ready.slot (Path.join directory name) = .ok place

namespace Outgrown

theorem refl (directory : String) (files : Files) : Outgrown directory files files :=
  ⟨.refl files, fun _ => Or.inl rfl⟩

/-- Outputs do not stand in the way of outputs. -/
theorem place_join (outgrown : Outgrown directory ready files) (named : Path.IsName name) :
    files.place (Path.join directory name) = ready.place (Path.join directory name) := by
  rcases outgrown.grown.place_cases (Path.join directory name) with same | ⟨missing, blocked⟩
  · exact same
  exfalso
  by_cases all : ∀ place, files.node? place = ready.node? place
  · have back : Files.Grown files ready :=
      ⟨outgrown.grown.working.symm, fun place => Or.inl (all place).symm⟩
    rcases back.place_cases (Path.join directory name) with same | ⟨other, -⟩
    · cases missing.symm.trans (same.trans blocked)
    · cases other.symm.trans blocked
  · -- The directory of the outputs is there, so no path into it ends for want of a file.
    obtain ⟨place, changed⟩ := not_forall.mp all
    obtain ⟨input, other, output, free⟩ := (outgrown.outputs place).resolve_left changed
    have otherNamed := output.isName (outputStem_toList input).2
    obtain ⟨above, walked, stands, -⟩ := Files.place_join otherNamed (Files.slot_eq_ok.mp free).1
    rw [Files.place] at missing blocked
    cases usable : Files.checkPath (Path.join directory name) with
    | error fault =>
        rw [usable] at missing blocked
        cases missing.symm.trans blocked
    | ok _ =>
        rw [usable] at missing
        simp only [Files.start, Path.isAbsolute_join directory named.1,
          Path.pieces_join directory named.1, Files.walk_append] at missing
        rw [Files.start] at walked
        simp only [walked, Files.walk, stands] at missing
        split at missing <;> cases missing

theorem slot_join (outgrown : Outgrown directory ready files) (named : Path.IsName name) :
    files.slot (Path.join directory name) = ready.slot (Path.join directory name) := by
  rw [Files.slot, Files.slot, outgrown.place_join named]
  cases ready.place (Path.join directory name) with
  | error fault => rfl
  | ok place =>
      rcases outgrown.grown.nodes place with same | ⟨other, bytes, written⟩
      · simp only [same]
      · simp only [written]

theorem writeText_join (outgrown : Outgrown directory ready files) (named : Path.IsName name)
    (text : String) : files.writeText (Path.join directory name) text =
      (ready.slot (Path.join directory name)).map
        fun place => files.put place (.file text.toUTF8) := by
  rw [Files.writeText_eq, outgrown.slot_join named]

theorem put (outgrown : Outgrown directory ready files) {input : String}
    (output : IsOutput (outputStem input) name)
    (free : ready.slot (Path.join directory name) = .ok place) (bytes : ByteArray) :
    Outgrown directory ready (files.put place (.file bytes)) := by
  have other : files.node? place ≠ some .directory := fun stands =>
    (Files.slot_eq_ok.mp free).2 (outgrown.grown.directory_iff.mp stands)
  refine ⟨outgrown.grown.trans (.put other bytes), fun wanted => ?_⟩
  rw [Files.node?_put (Files.ne_root other)]
  by_cases same : wanted = place
  · subst same
    exact Or.inr ⟨input, name, output, free⟩
  · rw [if_neg same]
    exact outgrown.outputs wanted

/-- An input is read as before the outputs were written, unless one is its own or in its way. -/
theorem readText_cases (tree : ready.IsTree) (outgrown : Outgrown directory ready files)
    (input : String) (own : ∀ name place, IsOutput (outputStem input) name →
      ready.slot (Path.join directory name) = .ok place → files.node? place = ready.node? place) :
    files.readText input = ready.readText input ∨
      ready.readText input = .error .notFound ∧ files.readText input = .error .notDirectory := by
  refine outgrown.grown.readText_cases input fun place leads => ?_
  rcases outgrown.outputs place with same | ⟨other, name, output, free⟩
  · exact same
  · -- What stands at the place of an output has its name, so the output is that of the input.
    obtain ⟨begun, plain⟩ := outputStem_toList other
    obtain ⟨led, different⟩ := Files.slot_eq_ok.mp free
    obtain ⟨above, -, -, atName⟩ := Files.place_join (output.isName plain) led
    obtain ⟨within, last, atLast, named⟩ := tree.name? leads different
    obtain ⟨-, rfl⟩ := Place.child_inj (atName.symm.trans atLast)
    exact own name place (outputStem_of_output output begun named ▸ output) free

end Outgrown

end Outputs

/-- The outputs of a page, by their names and texts. -/
inductive GrammarPage.Outputs (page : GrammarPage) (stem : String) : String → String → Prop where
  | html : page.Outputs stem (pageName stem) page.html
  | specification : page.Outputs stem (specificationName stem) page.specification

theorem GrammarPage.Outputs.isOutput {page : GrammarPage} {stem name text : String}
    (output : page.Outputs stem name text) : IsOutput stem name := by
  cases output with
  | html => exact .page
  | specification => exact .specification

namespace Worker

/-- A worker takes its step on files in memory. -/
def turn (setup : Job.Setup) (state : Worker × Files) : Worker × Files :=
  (state.1.step Disk.inMemory setup).run state.2

/-- What comes after reading an input. -/
def Stage.ofText (setup : Job.Setup) (stem : String) : Except DiskFault String → Stage
  | .error fault => .ended (.error (.disk fault))
  | .ok source =>
      match GrammarPage.build setup.settings (svgRenderer setup.settings.metrics) stem source
          setup.root with
      | .error rejection => .ended (.error (.grammar rejection source))
      | .ok page => .writingPage stem page

section Stages

variable {setup : Job.Setup} {input stem : String} {page : GrammarPage} {files : Files}

theorem turn_reading : turn setup (⟨input, .reading stem⟩, files) =
    (⟨input, .ofText setup stem (files.readText input)⟩, files) := by
  simp only [turn, step, Stage.next, Job.readPage, Stage.ofText, Disk.inMemory, bind, StateT.bind,
    pure, StateT.run]
  cases files.readText input with
  | error fault => rfl
  | ok source =>
      dsimp only
      cases GrammarPage.build setup.settings (svgRenderer setup.settings.metrics) stem source
        setup.root <;> rfl

theorem writeOutput_run (setup : Job.Setup) (name text : String) (files : Files) :
    (Job.writeOutput Disk.inMemory setup name text).run files =
      match files.writeText (Path.join setup.outputDirectory name) text with
      | .error fault => (.error (.disk fault), files)
      | .ok changed => (.ok (), changed) := by
  simp only [Job.writeOutput, Disk.inMemory, Disk.applying, bind, StateT.bind, pure, StateT.run]
  cases files.writeText (Path.join setup.outputDirectory name) text <;> rfl

theorem turn_writingPage : turn setup (⟨input, .writingPage stem page⟩, files) =
    match files.writeText (Path.join setup.outputDirectory (pageName stem)) page.html with
    | .error fault => (⟨input, .ended (.error (.disk fault))⟩, files)
    | .ok changed => (⟨input, .writingSpecification stem page⟩, changed) := by
  have written := writeOutput_run setup (pageName stem) page.html files
  simp only [turn, step, Stage.next, Job.writePage, bind, StateT.bind, pure,
    StateT.run] at written ⊢
  rw [written]
  cases files.writeText (Path.join setup.outputDirectory (pageName stem)) page.html <;> rfl

theorem turn_writingSpecification : turn setup (⟨input, .writingSpecification stem page⟩, files) =
    if setup.writesSpecification then
      match files.writeText (Path.join setup.outputDirectory (specificationName stem))
          page.specification with
      | .error fault => (⟨input, .ended (.error (.disk fault))⟩, files)
      | .ok changed => (⟨input, .ended (.ok ())⟩, changed)
    else (⟨input, .ended (.ok ())⟩, files) := by
  have written := writeOutput_run setup (specificationName stem) page.specification files
  simp only [turn, step, Stage.next, Job.writeSpecification, bind, StateT.bind, pure,
    StateT.run] at written ⊢
  by_cases asked : setup.writesSpecification
  · rw [if_pos asked, if_pos asked, written]
    cases files.writeText (Path.join setup.outputDirectory (specificationName stem))
      page.specification <;> rfl
  · rw [if_neg asked, if_neg asked]
    rfl

end Stages

/-- The stem that a worker still works with. -/
def Stage.stem? : Stage → Option String
  | .reading stem => some stem
  | .writingPage stem _ => some stem
  | .writingSpecification stem _ => some stem
  | .ended _ => none

/-- The page that a worker has made of its input and has still to write. -/
def Stage.page? : Stage → Option GrammarPage
  | .writingPage _ page | .writingSpecification _ page => some page
  | .reading _ | .ended _ => none

/-- What a turn writes is an output of the page of the worker. -/
theorem turn_writes (setup : Job.Setup) (worker : Worker) (files : Files) :
    (turn setup (worker, files)).2 = files ∨ ∃ stem page name text place,
      worker.stage.stem? = some stem ∧ worker.stage.page? = some page ∧
        page.Outputs stem name text ∧
        files.slot (Path.join setup.outputDirectory name) = .ok place ∧
        (turn setup (worker, files)).2 = files.put place (.file text.toUTF8) := by
  obtain ⟨input, stage⟩ := worker
  cases stage with
  | reading stem =>
      rw [turn_reading]
      exact Or.inl rfl
  | writingPage stem page =>
      rw [turn_writingPage, Files.writeText_eq]
      cases free : files.slot (Path.join setup.outputDirectory (pageName stem)) with
      | error fault => exact Or.inl rfl
      | ok place => exact Or.inr ⟨stem, page, _, _, place, rfl, rfl, .html, free, rfl⟩
  | writingSpecification stem page =>
      rw [turn_writingSpecification, Files.writeText_eq]
      split
      · cases free : files.slot (Path.join setup.outputDirectory (specificationName stem)) with
        | error fault => exact Or.inl rfl
        | ok place => exact Or.inr ⟨stem, page, _, _, place, rfl, rfl, .specification, free, rfl⟩
      · exact Or.inl rfl
  | ended outcome => exact Or.inl rfl

/-- The worker of a job. -/
structure Does (worker : Worker) (job : Job) : Prop where
  input : worker.input = job.input
  stem : ∀ stem, worker.stage.stem? = some stem → job.stem = .ok stem

theorem ofJob_does (job : Job) : (ofJob job).Does job := by
  refine ⟨rfl, fun stem left => ?_⟩
  unfold ofJob at left
  dsimp only at left
  split at left
  next own given =>
    cases left
    exact given
  next => cases left

end Worker

namespace Job

/-- The stem of a job is that of its input. -/
def Proper (job : Job) : Prop := ∀ stem, job.stem = .ok stem → outputStem job.input = stem

/-- The places of the outputs of a job. -/
def Owns (directory : String) (ready : Files) (job : Job) (place : Place) : Prop :=
  ∃ stem name, job.stem = .ok stem ∧ IsOutput stem name ∧
    ready.slot (Path.join directory name) = .ok place

theorem Proper.isName {job : Job} {stem name : String} (proper : job.Proper)
    (given : job.stem = .ok stem) (output : IsOutput stem name) : Path.IsName name :=
  output.isName (proper stem given ▸ (outputStem_toList job.input).2)

variable {directory : String} {ready files : Files} {place : Place} {first second : Job}

/-- Jobs that share a place of an output share their stem. -/
theorem stem_of_owns (proper : first.Proper) (properToo : second.Proper)
    (owns : first.Owns directory ready place) (ownsToo : second.Owns directory ready place) :
    first.stem = second.stem := by
  obtain ⟨stem, name, given, output, free⟩ := owns
  obtain ⟨other, otherName, givenToo, outputToo, freeToo⟩ := ownsToo
  have begun := proper stem given ▸ (outputStem_toList first.input).1
  have begunToo := properToo other givenToo ▸ (outputStem_toList second.input).1
  obtain ⟨above, -, -, rfl⟩ :=
    Files.place_join (proper.isName given output) (Files.slot_eq_ok.mp free).1
  obtain ⟨otherAbove, -, -, same⟩ :=
    Files.place_join (properToo.isName givenToo outputToo) (Files.slot_eq_ok.mp freeToo).1
  obtain ⟨-, rfl⟩ := Place.child_inj same
  rw [given, givenToo, ← output.stemOf begun, outputToo.stemOf begunToo]

end Job

namespace Worker

variable {setup : Job.Setup} {ready files : Files} {worker : Worker} {job : Job}

/-- A turn leaves the files as they are or writes one output. -/
theorem turn_files (does : worker.Does job) (proper : job.Proper)
    (outgrown : Outgrown setup.outputDirectory ready files) :
    (turn setup (worker, files)).2 = files ∨ ∃ stem name place bytes, job.stem = .ok stem ∧
      IsOutput stem name ∧ ready.slot (Path.join setup.outputDirectory name) = .ok place ∧
        (turn setup (worker, files)).2 = files.put place (.file bytes) := by
  refine (turn_writes setup worker files).imp_right ?_
  rintro ⟨stem, page, name, text, place, working, -, output, free, written⟩
  have given := does.stem stem working
  rw [outgrown.slot_join (proper.isName given output.isOutput)] at free
  exact ⟨stem, name, place, _, given, output.isOutput, free, written⟩

theorem turn_does (setup : Job.Setup) (does : worker.Does job) (files : Files) :
    (turn setup (worker, files)).1.Does job := by
  obtain ⟨input, stage⟩ := worker
  cases stage with
  | reading stem =>
      rw [turn_reading]
      refine ⟨does.input, fun other left => does.stem other ?_⟩
      unfold Stage.ofText at left
      split at left
      · cases left
      · split at left
        · cases left
        · exact left
  | writingPage stem page =>
      rw [turn_writingPage]
      split
      · exact ⟨does.input, fun other left => nomatch left⟩
      · exact ⟨does.input, does.stem⟩
  | writingSpecification stem page =>
      rw [turn_writingSpecification]
      split
      · split <;> exact ⟨does.input, fun other left => nomatch left⟩
      · exact ⟨does.input, fun other left => nomatch left⟩
  | ended outcome => exact does

/-- What a turn does to the files. -/
structure Advances (directory : String) (ready : Files) (job : Job) (files next : Files) : Prop where
  grown : Files.Grown files next
  outgrown : Outgrown directory ready next
  elsewhere : ∀ place, ¬job.Owns directory ready place → next.node? place = files.node? place

theorem turn_advances (does : worker.Does job) (proper : job.Proper)
    (outgrown : Outgrown setup.outputDirectory ready files) :
    Advances setup.outputDirectory ready job files (turn setup (worker, files)).2 := by
  rcases turn_files does proper outgrown with
    same | ⟨stem, name, place, bytes, given, output, free, written⟩
  · rw [same]
    exact ⟨.refl files, outgrown, fun _ _ => rfl⟩
  · rw [written]
    have other : files.node? place ≠ some .directory := fun stands =>
      (Files.slot_eq_ok.mp free).2 (outgrown.grown.directory_iff.mp stands)
    refine ⟨.put other bytes, outgrown.put (proper stem given ▸ output) free bytes,
      fun wanted notOwned => ?_⟩
    rw [Files.node?_put (Files.ne_root other), if_neg]
    rintro rfl
    exact notOwned ⟨stem, name, given, output, free⟩

end Worker

end Railroad
