import Railroad.Proofs.Run.Endings

/-!
# What failed inputs leave behind

An input that fails leaves the places of its outputs as they were before the run.  There is one
exception: when its page has been written and its specification cannot be, the page stays.
-/

namespace Railroad

open Worker (settle)

namespace Files

/-- The bytes of the file at a place. -/
def bytes? (files : Files) (place : Place) : Option ByteArray :=
  match files.node? place with
  | some (.file bytes) => some bytes
  | _ => none

/-- Where a path leads, before or after, the same file stands, or none does. -/
def Untouched (before after : Files) (path : String) : Prop :=
  ∀ place, before.place path = .ok place ∨ after.place path = .ok place →
    after.bytes? place = before.bytes? place

theorem bytes?_congr {before after : Files} {place : Place}
    (same : after.node? place = before.node? place) : after.bytes? place = before.bytes? place := by
  rw [bytes?, bytes?, same]

theorem Furnished.bytes? {before after : Files} (furnished : Furnished before after)
    (place : Place) : after.bytes? place = before.bytes? place := by
  rcases furnished.nodes place with same | ⟨free, directory⟩
  · exact bytes?_congr same
  · rw [Files.bytes?, Files.bytes?, free, directory]

theorem Furnished.place {before after : Files} (furnished : Furnished before after) {path : String}
    {place : Place} (leads : before.place path = .ok place) : after.place path = .ok place := by
  have start : after.start path = before.start path := by
    rw [start, start, furnished.working]
  rw [Files.place] at leads ⊢
  split at leads
  · cases leads
  · rcases furnished.walk_cases (before.start path) (Path.pieces path) with same | lost
    · rw [start, ← same]
      exact leads
    · cases lost.symm.trans leads

end Files

section Alone

variable {setup : Job.Setup} {ready : Files} {input stem : String} {failure : Failure}

/-- A page has been written although the specification could not be. -/
structure LeftPage (setup : Job.Setup) (ready : Files) (input stem : String) (failure : Failure)
    (page : GrammarPage) (place : Place) : Prop where
  built : ∃ source, ready.readText input = .ok source ∧
    GrammarPage.build setup.settings (svgRenderer setup.settings.metrics) stem source setup.root =
      .ok page
  slot : ready.slot (Path.join setup.outputDirectory (pageName stem)) = .ok place
  asked : setup.writesSpecification = true
  refused : ∃ fault, failure = .disk fault ∧
    ready.slot (Path.join setup.outputDirectory (specificationName stem)) = .error fault

/-- A worker that fails on its own leaves the files as they were, but for its page. -/
theorem settle_failed (own : outputStem input = stem)
    (failed : (settle setup (⟨input, .reading stem⟩, ready)).1.stage = .ended (.error failure)) :
    (settle setup (⟨input, .reading stem⟩, ready)).2 = ready ∨
      ∃ page place, LeftPage setup ready input stem failure page place ∧
        (settle setup (⟨input, .reading stem⟩, ready)).2 =
          ready.put place (.file page.html.toUTF8) := by
  subst own
  have named : Path.IsName (specificationName (outputStem input)) :=
    IsOutput.specification.isName (outputStem_toList input).2
  rw [settle, Worker.turn_reading] at failed ⊢
  cases read : ready.readText input with
  | error fault => exact Or.inl rfl
  | ok source =>
    rw [read, Worker.Stage.ofText] at failed
    rw [Worker.Stage.ofText]
    cases built : GrammarPage.build setup.settings (svgRenderer setup.settings.metrics)
        (outputStem input) source setup.root with
    | error rejection => exact Or.inl rfl
    | ok page =>
      simp only [built, Worker.turn_writingPage, Files.writeText_eq] at failed ⊢
      cases slot : ready.slot (Path.join setup.outputDirectory (pageName (outputStem input))) with
      | error fault => exact Or.inl rfl
      | ok place =>
        have outgrown := (Outgrown.refl setup.outputDirectory ready).put .page slot
          page.html.toUTF8
        simp only [slot, Except.map] at failed ⊢
        rw [Worker.turn_writingSpecification, outgrown.writeText_join named] at failed ⊢
        by_cases asked : setup.writesSpecification
        · rw [if_pos asked] at failed ⊢
          cases refused : ready.slot
              (Path.join setup.outputDirectory (specificationName (outputStem input))) with
          | error fault =>
            rw [refused] at failed
            cases failed
            have left : LeftPage setup ready input (outputStem input) (.disk fault) page place :=
              ⟨⟨source, read, built⟩, slot, asked, fault, rfl, refused⟩
            exact Or.inr ⟨page, place, left, rfl⟩
          | ok other =>
            rw [refused] at failed
            cases failed
        · rw [if_neg asked] at failed
          cases failed

end Alone

section Among

variable {setup : Job.Setup} {files ready after : Files} {jobs : List Job} {workers : List Worker}
  {job : Job} {worker : Worker} {stem name : String} {failure : Failure}

/-- A worker that fails among others leaves its outputs as they were, but for its page. -/
theorem Underway.remains (underway : Underway setup ready jobs (workers, after))
    (proper : job.Proper) (follows : Follows setup ready after job worker)
    (failed : worker.stage = .ended (.error failure)) (given : job.stem = .ok stem)
    (output : IsOutput stem name) {place : Place}
    (leads : ready.place (Path.join setup.outputDirectory name) = .ok place) :
    after.bytes? place = ready.bytes? place ∨
      ∃ page, LeftPage setup ready job.input stem failure page place ∧
        after.bytes? place = some page.html.toUTF8 := by
  by_cases directory : ready.node? place = some .directory
  · rw [Files.bytes?, Files.bytes?, directory, underway.outgrown.grown.directory_iff.mpr directory]
    exact Or.inl rfl
  obtain ⟨same, owned⟩ := follows.finished ⟨_, failed⟩
  have stands := owned place ⟨stem, name, given, output, Files.slot_eq_ok.mpr ⟨leads, directory⟩⟩
  have began : Worker.ofJob job = ⟨job.input, .reading stem⟩ := by
    unfold Worker.ofJob
    rw [given]
  rw [began] at same stands
  have left : (settle setup (⟨job.input, .reading stem⟩, ready)).2 = ready ∨
      ∃ page place, LeftPage setup ready job.input stem failure page place ∧
        (settle setup (⟨job.input, .reading stem⟩, ready)).2 =
          ready.put place (.file page.html.toUTF8) := by
    rcases same with equal | blocked
    · exact settle_failed (proper stem given) (equal ▸ failed)
    · rcases settle_failed (proper stem given) blocked.stageAlone with kept | ⟨_, _, leftPage, -⟩
      · exact Or.inl kept
      · -- A worker that is blocked has no input to make a page of.
        obtain ⟨_, _, coupled⟩ := follows
        obtain ⟨source, read, -⟩ := leftPage.built
        cases read.symm.trans (coupled.does.input ▸ blocked.missing)
  rcases left with kept | ⟨page, written, leftPage, put⟩
  · rw [kept] at stands
    exact Or.inl (Files.bytes?_congr stands)
  · rw [put, Files.node?_put (Files.ne_root (Files.slot_eq_ok.mp leftPage.slot).2)] at stands
    by_cases here : place = written
    · subst here
      rw [if_pos rfl] at stands
      exact Or.inr ⟨page, leftPage, by rw [Files.bytes?, stands]⟩
    · rw [if_neg here] at stands
      exact Or.inl (Files.bytes?_congr stands)

/-- A failure other than that of a taken stem comes from a worker whose job has a stem. -/
theorem Underway.exists_failed {inputs : List String}
    (underway : Underway setup ready (Job.ofInputs inputs) (workers, after)) {input : String}
    (failed : (input, failure) ∈ workers.filterMap Worker.failure?)
    (claimed : ∀ output first, failure ≠ .disk (.outputTaken output first)) :
    ∃ job worker, job.input = input ∧ job.Proper ∧ job.stem = .ok (outputStem input) ∧
      Follows setup ready after job worker ∧ worker.stage = .ended (.error failure) := by
  obtain ⟨worker, present, found⟩ := List.mem_filterMap.mp failed
  obtain ⟨rfl, stage⟩ := Worker.failure?_eq_some.mp found
  obtain ⟨job, member, follows⟩ := underway.exists_job present
  have proper := (Job.apart_ofInputs inputs).proper job member
  have same : worker.input = job.input := follows.choose_spec.2.does.input
  refine ⟨job, worker, same.symm, proper, ?_, follows, stage⟩
  cases given : job.stem with
  | ok stem => rw [same, proper stem given]
  | error fault =>
      obtain ⟨output, first, rfl⟩ := Job.claimAll_taken member given
      have taken := congrArg Worker.stage (follows.taken ⟨_, stage⟩ given)
      rw [stage] at taken
      cases taken
      exact absurd rfl (claimed output first)

/-- A path to an output leads where it led when the files were ready. -/
theorem Outgrown.place_ready {directory : String} (outgrown : Outgrown directory ready after)
    (furnished : Files.Furnished files ready) (named : Path.IsName name) {place : Place}
    (leads : files.place (Path.join directory name) = .ok place ∨
      after.place (Path.join directory name) = .ok place) :
    ready.place (Path.join directory name) = .ok place :=
  leads.elim furnished.place fun later => outgrown.place_join named ▸ later

/-- The place of a page is not that of a specification. -/
theorem LeftPage.ne_specification {input : String} {page : GrammarPage} {place : Place}
    (left : LeftPage setup ready input stem failure page place) :
    ready.place (Path.join setup.outputDirectory (specificationName stem)) ≠ .ok place := by
  intro leads
  obtain ⟨fault, -, refused⟩ := left.refused
  have free := Files.slot_eq_ok.mpr ⟨leads, (Files.slot_eq_ok.mp left.slot).2⟩
  cases refused.symm.trans free

/-- The specification of an input that fails is left alone. -/
theorem Underway.untouched_specification
    (underway : Underway setup ready jobs (workers, after))
    (furnished : Files.Furnished files ready) (proper : job.Proper)
    (follows : Follows setup ready after job worker)
    (failed : worker.stage = .ended (.error failure)) (given : job.stem = .ok stem) :
    files.Untouched after (Path.join setup.outputDirectory (specificationName stem)) := by
  intro place leads
  have led := underway.outgrown.place_ready furnished (proper.isName given .specification) leads
  rcases underway.remains proper follows failed given .specification led with
    kept | ⟨page, left, -⟩
  · exact kept.trans (furnished.bytes? place)
  · exact absurd led left.ne_specification

/-- The page of an input that fails is left alone, unless it is written before the failure. -/
theorem Underway.untouched_page
    (underway : Underway setup ready jobs (workers, after))
    (furnished : Files.Furnished files ready) (proper : job.Proper)
    (follows : Follows setup ready after job worker)
    (failed : worker.stage = .ended (.error failure)) (given : job.stem = .ok stem) :
    files.Untouched after (Path.join setup.outputDirectory (pageName stem)) ∨
      ∃ page place, LeftPage setup ready job.input stem failure page place ∧
        after.bytes? place = some page.html.toUTF8 := by
  refine or_iff_not_imp_right.mpr fun noPage place leads => ?_
  have led := underway.outgrown.place_ready furnished (proper.isName given .page) leads
  rcases underway.remains proper follows failed given .page led with kept | ⟨page, left⟩
  · exact kept.trans (furnished.bytes? place)
  · exact absurd ⟨page, place, left⟩ noPage

end Among

/--
An input whose stem is its own leaves nothing behind when it fails: where its page and its
specification would be, the same files stand as before the run, or none.  The page stays in one
case, in which it was written and the specification could not be.
-/
theorem failed_remains {platformFile : Option String} {arguments : Arguments} {files after : Files}
    (tree : files.IsTree) {failures : List (String × Failure)} {total : Nat}
    (ends : Ends platformFile arguments files (.error (.inputs failures total), after))
    {input : String} {failure : Failure} (failed : (input, failure) ∈ failures)
    (claimed : ∀ output first, failure ≠ .disk (.outputTaken output first)) :
    files.Untouched after
        (Path.join arguments.outputDirectory (specificationName (outputStem input))) ∧
      (files.Untouched after (Path.join arguments.outputDirectory (pageName (outputStem input))) ∨
        ∃ setup ready source page fault place,
          (prepare Disk.inMemory platformFile arguments).run files = (.ok setup, ready) ∧
          ready.readText input = .ok source ∧
          GrammarPage.build setup.settings (svgRenderer setup.settings.metrics) (outputStem input)
            source arguments.root = .ok page ∧
          arguments.writesSpecification = true ∧ failure = .disk fault ∧
          after.writeText
              (Path.join arguments.outputDirectory (specificationName (outputStem input)))
              page.specification = .error fault ∧
          after.place (Path.join arguments.outputDirectory (pageName (outputStem input))) =
            .ok place ∧
          after.bytes? place = some page.html.toUTF8) := by
  rcases ends.cases tree with
    ⟨_, -, same⟩ | ⟨setup, ready, workers, prepared, furnished, underway, -, same⟩
  · cases same
  obtain ⟨rfl, -, -⟩ := summary_eq_inputs.mp same.symm
  obtain ⟨job, worker, rfl, proper, given, follows, stage⟩ :=
    underway.exists_failed failed claimed
  have common := prepare_setup prepared
  have directory : setup.outputDirectory = arguments.outputDirectory := by rw [common]; rfl
  rw [← directory]
  refine ⟨underway.untouched_specification furnished proper follows stage given,
    (underway.untouched_page furnished proper follows stage given).imp_right ?_⟩
  rintro ⟨page, place, left, stays⟩
  obtain ⟨source, read, built⟩ := left.built
  obtain ⟨fault, isFault, refused⟩ := left.refused
  have asked : arguments.writesSpecification = true := by rw [← left.asked, common]; rfl
  have builtFor : GrammarPage.build setup.settings (svgRenderer setup.settings.metrics)
      (outputStem job.input) source arguments.root = .ok page := by rw [← built, common]; rfl
  have unwritten : after.writeText (Path.join setup.outputDirectory
      (specificationName (outputStem job.input))) page.specification = .error fault := by
    rw [underway.outgrown.writeText_join (proper.isName given .specification), refused]
    rfl
  have leads : after.place (Path.join setup.outputDirectory (pageName (outputStem job.input))) =
      .ok place := by
    rw [underway.outgrown.place_join (proper.isName given .page)]
    exact (Files.slot_eq_ok.mp left.slot).1
  exact ⟨setup, ready, source, page, fault, place, prepared, read, builtFor, asked, isFault,
    unwritten, leads, stays⟩

/-- One file, whose specification cannot be written. -/
def blockedFiles : Files where
  nodes := ⟨[(Place.root.child "G.g4", .file "grammar G; a : 'x' ;".toUTF8),
    (Place.root.child "out", .directory), ((Place.root.child "out").child "G.rr", .directory)]⟩
  workingDirectory := .root

def blockedArguments : Arguments where
  inputs := ["G.g4"]
  outputDirectory := "out"
  root := none
  writesSpecification := true
  settingsFile := none
  logLevel := "info"

theorem blockedFiles_isTree : blockedFiles.IsTree := by
  refine ⟨rfl, fun place member => ?_⟩
  simp only [blockedFiles, Catalog.keys, List.map_cons, List.map_nil, List.mem_cons,
    List.not_mem_nil, or_false] at member
  rcases member with rfl | rfl | rfl <;> rfl

/-- The faults of a run that failed, with their inputs. -/
def faultsOf : Except RunFailure Unit → Option (List (String × Option DiskFault))
  | .error (.inputs failures _) => some <| failures.map fun failed =>
      (failed.1, match failed.2 with | .disk fault => some fault | _ => none)
  | _ => none

theorem blocked_fails : ∃ total, ((run Disk.inMemory none blockedArguments).run blockedFiles).1 =
    .error (.inputs [("G.g4", .disk .isDirectory)] total) := by
  have faults : faultsOf ((run Disk.inMemory none blockedArguments).run blockedFiles).1 =
      some [("G.g4", some .isDirectory)] := by
    decide +kernel
  generalize ((run Disk.inMemory none blockedArguments).run blockedFiles).1 = result at faults ⊢
  match result, faults with
  | .error (.inputs [(_, .disk _)] total), rfl => exact ⟨total, rfl⟩

theorem failed_remains_blocked : ∃ total after,
    Ends none blockedArguments blockedFiles
      (.error (.inputs [("G.g4", .disk .isDirectory)] total), after) ∧
    blockedFiles.Untouched after (Path.join "out" (specificationName (outputStem "G.g4"))) ∧
    (blockedFiles.Untouched after (Path.join "out" (pageName (outputStem "G.g4"))) ∨
      ∃ setup ready source page fault place,
        (prepare Disk.inMemory none blockedArguments).run blockedFiles = (.ok setup, ready) ∧
        ready.readText "G.g4" = .ok source ∧
        GrammarPage.build setup.settings (svgRenderer setup.settings.metrics) (outputStem "G.g4")
          source none = .ok page ∧
        blockedArguments.writesSpecification = true ∧ Failure.disk .isDirectory = .disk fault ∧
        after.writeText (Path.join "out" (specificationName (outputStem "G.g4")))
          page.specification = .error fault ∧
        after.place (Path.join "out" (pageName (outputStem "G.g4"))) = .ok place ∧
        after.bytes? place = some page.html.toUTF8) := by
  obtain ⟨total, fails⟩ := blocked_fails
  have ends := run_ends none blockedArguments blockedFiles
  generalize (run Disk.inMemory none blockedArguments).run blockedFiles = ended at ends fails
  obtain ⟨result, after⟩ := ended
  obtain rfl := fails
  exact ⟨total, after, ends, failed_remains blockedFiles_isTree ends (List.mem_singleton_self _)
    fun output first same => nomatch same⟩

theorem page_remains :
    blockedFiles.IsTree ∧
    Ends none blockedArguments blockedFiles
      ((run Disk.inMemory none blockedArguments).run blockedFiles) ∧
    (∃ total, ((run Disk.inMemory none blockedArguments).run blockedFiles).1 =
      .error (.inputs [("G.g4", .disk .isDirectory)] total)) ∧
    ¬blockedFiles.Untouched ((run Disk.inMemory none blockedArguments).run blockedFiles).2
      "out/G.html" := by
  refine ⟨blockedFiles_isTree, run_ends .., blocked_fails, fun untouched => ?_⟩
  have leads : ((run Disk.inMemory none blockedArguments).run blockedFiles).2.place "out/G.html" =
      .ok ((Place.root.child "out").child "G.html") := by
    decide +kernel
  have stays : (((run Disk.inMemory none blockedArguments).run blockedFiles).2.bytes?
      ((Place.root.child "out").child "G.html")).isSome = true := by
    decide +kernel
  rw [untouched _ (Or.inr leads)] at stays
  cases stays

end Railroad
