import Railroad.Proofs.Page.ErrorRows
import Railroad.Proofs.Run.Remains

/-!
# Settings that draw

Settings are checked when they are loaded, and their measures are checked again for every drawing.
The two checks agree, and the standard settings pass both, so a run that has begun draws every rule
that it shows, and no row of an error comes into its files.
-/

namespace Railroad

/-- What the program returns can be returned with a proof that this holds of it. -/
def Returns {m : Type → Type} [Functor m] {α : Type} (holds : α → Prop) (program : m α) : Prop :=
  ∃ proved : m { value // holds value }, program = Subtype.val <$> proved

namespace Returns

variable {α β : Type} {holds : α → Prop}

section Monads

variable {m : Type → Type} [Monad m] [LawfulMonad m]

theorem pure {value : α} (here : holds value) : Returns holds (Pure.pure value : m α) :=
  ⟨Pure.pure ⟨value, here⟩, by rw [map_pure]⟩

/-- Nothing has to be known of what is done first. -/
theorem bind (first : m β) {next : β → m α} (later : ∀ value, Returns holds (next value)) :
    Returns holds (first >>= next) := by
  choose proved same using later
  exact ⟨first >>= proved, by rw [map_bind]; exact bind_congr same⟩

end Monads

theorem run {σ : Type} {program : StateM σ α} (returns : Returns holds program) (state : σ) :
    holds (program.run state).1 := by
  obtain ⟨proved, rfl⟩ := returns
  exact (proved.run state).1.2

end Returns

namespace Settings

/-- Every diagram can be drawn. -/
def Draws (settings : Settings) : Prop :=
  ∀ diagram, svgRenderer settings.metrics diagram = .ok (diagram.svg settings.metrics).render

theorem draws_iff {settings : Settings} : settings.Draws ↔ settings.metrics.unusable? = none := by
  refine ⟨fun draws => ?_, GrammarPage.svgRenderer_ok⟩
  have drawn := draws (.terminal "")
  unfold svgRenderer at drawn
  split at drawn
  · cases drawn
  · assumption

/-- Settings pass the check on loading if and only if every drawing passes its own. -/
theorem checked_eq_ok {decoded settings : Settings} :
    decoded.checked = .ok settings ↔ settings = decoded ∧ decoded.Draws := by
  rw [draws_iff, checked]
  split
  next unusable => simp [unusable]
  next usable => rw [Except.ok.injEq, eq_comm, usable, and_iff_left rfl]

theorem standard_draws : standard.Draws := draws_iff.mpr (by decide +kernel)

theorem ofText_draws {text : String} {settings : Settings} (read : ofText text = .ok settings) :
    settings.Draws := by
  unfold ofText at read
  split at read
  · cases read
  · obtain ⟨rfl, draws⟩ := checked_eq_ok.mp read
    exact draws

/-- Whatever the disk is, settings that are loaded draw every diagram. -/
theorem load_draws {m : Type → Type} [Monad m] [LawfulMonad m] (disk : Disk m)
    (named platformFile : Option String) :
    Returns (∀ settings, · = .ok settings → settings.Draws) (load disk named platformFile) := by
  refine .bind _ fun located => ?_
  rcases located with fault | _ | path
  · exact .pure fun settings failed => nomatch failed
  · exact .pure fun settings given => Except.ok.inj given ▸ standard_draws
  · refine .bind _ fun read => ?_
    cases read with
    | error fault => exact .pure fun settings failed => nomatch failed
    | ok text =>
        refine .pure fun settings given => ?_
        cases decoded : ofText text with
        | error fault =>
            rw [decoded] at given
            cases given
        | ok own =>
            rw [decoded] at given
            cases given
            exact ofText_draws decoded

theorem draws_of_loaded {named platformFile : Option String} {files after : Files}
    {settings : Settings}
    (loaded : (load Disk.inMemory named platformFile).run files = (.ok settings, after)) :
    settings.Draws :=
  (load_draws Disk.inMemory named platformFile).run files settings (congrArg Prod.fst loaded)

end Settings

/-- The settings of a run that has begun are loaded. -/
theorem prepare_draws {platformFile : Option String} {arguments : Arguments} {files ready : Files}
    {setup : Job.Setup}
    (prepared : (prepare Disk.inMemory platformFile arguments).run files = (.ok setup, ready)) :
    setup.settings.Draws := by
  rw [prepare_run] at prepared
  cases loaded : (Settings.load Disk.inMemory arguments.settingsFile platformFile).run files with
  | mk outcome kept =>
      rw [loaded] at prepared
      cases outcome with
      | error failure => cases prepared
      | ok settings =>
          dsimp only at prepared
          split at prepared
          · cases prepared
          · cases prepared
            exact Settings.draws_of_loaded loaded

namespace Worker

variable {setup : Job.Setup} {worker : Worker} {files : Files} {page : GrammarPage}

/-- A page is made when the input is read, and kept after that. -/
theorem turn_page (made : (turn setup (worker, files)).1.stage.page? = some page) :
    worker.stage.page? = some page ∨ ∃ stem source,
      GrammarPage.build setup.settings (svgRenderer setup.settings.metrics) stem source
        setup.root = .ok page := by
  obtain ⟨input, stage⟩ := worker
  cases stage with
  | reading stem =>
      rw [turn_reading] at made
      unfold Stage.ofText at made
      split at made
      next => cases made
      next source _ =>
        split at made
        next => cases made
        next built =>
          cases made
          exact Or.inr ⟨stem, source, built⟩
  | writingPage stem own =>
      rw [turn_writingPage] at made
      split at made
      · cases made
      · exact Or.inl made
  | writingSpecification stem own =>
      rw [turn_writingSpecification] at made
      split at made
      · split at made <;> cases made
      · cases made
  | ended outcome => cases made

theorem ofJob_page? (job : Job) : (ofJob job).stage.page? = none := by
  unfold ofJob
  dsimp only
  split <;> rfl

end Worker

/-- Every rule is drawn on the pages that the workers have. -/
def PagesDrawn (workers : List Worker) : Prop :=
  ∀ worker ∈ workers, ∀ page, worker.stage.page? = some page → page.IsDrawn

namespace PagesDrawn

variable {setup : Job.Setup}

theorem start (inputs : List String) : PagesDrawn (workersOf inputs) := by
  intro worker member page made
  obtain ⟨job, -, rfl⟩ := List.mem_map.mp member
  exact absurd (made.symm.trans (Worker.ofJob_page? job)) (Option.some_ne_none page)

theorem turn {front back : List Worker} {worker : Worker} (draws : setup.settings.Draws)
    (drawn : PagesDrawn (front ++ worker :: back)) (files : Files) :
    PagesDrawn (front ++ (Worker.turn setup (worker, files)).1 :: back) := by
  obtain ⟨earlier, both⟩ := List.forall_mem_append.mp drawn
  obtain ⟨own, later⟩ := List.forall_mem_cons.mp both
  refine List.forall_mem_append.mpr ⟨earlier, List.forall_mem_cons.mpr ⟨fun page made => ?_, later⟩⟩
  rcases Worker.turn_page made with kept | ⟨stem, source, built⟩
  · exact own page kept
  · exact GrammarPage.build_isDrawn (Settings.draws_iff.mp draws) built

theorem interleaving (draws : setup.settings.Draws) {state next : List Worker × Files}
    (drawn : PagesDrawn state.1) (turns : Interleaving setup state next) : PagesDrawn next.1 := by
  induction turns with
  | stop => exact drawn
  | turn _ ih => exact ih (drawn.turn draws _)

end PagesDrawn

/-- Whatever has been written since the files were ready is an output of a drawn page. -/
def OutputsDrawn (setup : Job.Setup) (ready files : Files) : Prop :=
  ∀ place, files.node? place = ready.node? place ∨
    ∃ (stem name text : String) (page : GrammarPage),
      page.IsDrawn ∧ page.Outputs stem name text ∧ Path.IsName name ∧
      ready.place (Path.join setup.outputDirectory name) = .ok place ∧
      files.node? place = some (.file text.toUTF8)

namespace OutputsDrawn

variable {setup : Job.Setup} {ready : Files} {jobs : List Job}

theorem turn {front back : List Worker} {worker : Worker} {files : Files}
    (apart : Job.Apart jobs)
    (underway : Underway setup ready jobs (front ++ worker :: back, files))
    (pages : PagesDrawn (front ++ worker :: back)) (drawn : OutputsDrawn setup ready files) :
    OutputsDrawn setup ready (Worker.turn setup (worker, files)).2 := by
  intro place
  rcases Worker.turn_writes setup worker files with
    same | ⟨stem, page, name, text, written, working, made, output, free, changed⟩
  · rw [same]
    exact drawn place
  · obtain ⟨before, job, after, rfl, -, ⟨_, -, coupled⟩, -⟩ := forall₂_middle underway.each
    have proper := apart.proper job (List.mem_append_right _ (List.mem_cons_self ..))
    have named := proper.isName (coupled.does.stem stem working) output.isOutput
    have isDrawn := pages worker (List.mem_append_right _ (List.mem_cons_self ..)) page made
    obtain ⟨leads, other⟩ := Files.slot_eq_ok.mp free
    rw [underway.outgrown.place_join named] at leads
    rw [changed, Files.node?_put (Files.ne_root other)]
    by_cases here : place = written
    · rw [if_pos here]
      exact Or.inr ⟨stem, name, text, page, isDrawn, output, named, here ▸ leads, rfl⟩
    · rw [if_neg here]
      exact drawn place

theorem interleaving (tree : ready.IsTree) (draws : setup.settings.Draws) (apart : Job.Apart jobs)
    {state next : List Worker × Files} (underway : Underway setup ready jobs state)
    (pages : PagesDrawn state.1) (drawn : OutputsDrawn setup ready state.2)
    (turns : Interleaving setup state next) : OutputsDrawn setup ready next.2 := by
  induction turns with
  | stop => exact drawn
  | turn _ ih =>
      exact ih (underway.turn tree apart) (pages.turn draws _) (drawn.turn apart underway pages)

end OutputsDrawn

/-- When a run that has begun ends, every file that it changed is an output of a drawn page. -/
theorem Ends.drawn {platformFile : Option String} {arguments : Arguments} {files after : Files}
    {result : Except RunFailure Unit} (tree : files.IsTree)
    (ends : Ends platformFile arguments files (result, after))
    (begun : ∀ failure, result ≠ .error (.setup failure)) (place : Place) :
    after.bytes? place = files.bytes? place ∨
      ∃ (stem name text : String) (page : GrammarPage),
        page.IsDrawn ∧ page.Outputs stem name text ∧
          after.place (Path.join arguments.outputDirectory name) = .ok place ∧
          after.bytes? place = some text.toUTF8 := by
  cases ends with
  | setup failed => exact absurd rfl (begun _)
  | @inputs setup ready _ workers prepared turns ended =>
      obtain ⟨furnished, readyTree⟩ := prepare_furnished tree prepared
      have apart := Job.apart_ofInputs arguments.inputs
      have began := Underway.start setup ready (Job.ofInputs arguments.inputs)
      have underway := began.interleaving readyTree apart turns
      have outputs : OutputsDrawn setup ready after :=
        .interleaving readyTree (prepare_draws prepared) apart began (.start arguments.inputs)
          (fun _ => Or.inl rfl) turns
      rcases outputs place with same | ⟨stem, name, text, page, isDrawn, output, named, leads, stands⟩
      · exact Or.inl ((Files.bytes?_congr same).trans (furnished.bytes? place))
      · have directory : setup.outputDirectory = arguments.outputDirectory := by
          rw [prepare_setup prepared]
          rfl
        rw [← underway.outgrown.place_join named, directory] at leads
        exact Or.inr ⟨stem, name, text, page, isDrawn, output, leads, by rw [Files.bytes?, stands]⟩

/--
Settings that load can always draw.  Whatever a file was decoded to, settings that pass the check on
loading draw every diagram, and so do the settings that any disk yields, with a file or without.
Once a run has prepared its files, no page of its workers has a failure or the row of one, in
whatever order they take their turns; when the run ends, every file that it changed is an output of
such a page.
-/
theorem settings_draw :
    (∀ decoded settings : Settings, decoded.checked = .ok settings → settings.Draws) ∧
    (∀ (m : Type → Type) [Monad m] [LawfulMonad m] (disk : Disk m)
      (named platformFile : Option String),
      Returns (∀ settings, · = .ok settings → settings.Draws)
        (Settings.load disk named platformFile)) ∧
    (∀ named platformFile files settings after,
      (Settings.load Disk.inMemory named platformFile).run files = (.ok settings, after) →
      settings.Draws) ∧
    ∀ platformFile arguments files,
      (∀ setup ready workers now,
        (prepare Disk.inMemory platformFile arguments).run files = (.ok setup, ready) →
        Interleaving setup (workersOf arguments.inputs, ready) (workers, now) →
        ∀ worker ∈ workers, ∀ page, worker.stage.page? = some page →
          page.failures = [] ∧ ¬Page.HasErrorRow page.html) ∧
      ∀ result after, files.IsTree → Ends platformFile arguments files (result, after) →
        (∀ failure, result ≠ .error (.setup failure)) →
        ∀ place, after.bytes? place = files.bytes? place ∨
          ∃ (stem name text : String) (page : GrammarPage),
            (page.failures = [] ∧ ¬Page.HasErrorRow page.html) ∧ page.Outputs stem name text ∧
              after.place (Path.join arguments.outputDirectory name) = .ok place ∧
              after.bytes? place = some text.toUTF8 := by
  refine ⟨fun decoded settings passed => ?_, fun m _ _ => Settings.load_draws,
    fun _ _ _ _ _ => Settings.draws_of_loaded, fun platformFile arguments files => ⟨?_, ?_⟩⟩
  · obtain ⟨rfl, draws⟩ := Settings.checked_eq_ok.mp passed
    exact draws
  · intro setup ready workers now prepared turns worker member page made
    have pages := (PagesDrawn.start arguments.inputs).interleaving (prepare_draws prepared) turns
    obtain ⟨failures, errorless⟩ := pages worker member page made
    exact ⟨failures, errorless⟩
  · intro result after tree ends begun place
    refine (ends.drawn tree begun place).imp_right ?_
    rintro ⟨stem, name, text, page, ⟨failures, errorless⟩, rest⟩
    exact ⟨stem, name, text, page, ⟨failures, errorless⟩, rest⟩

/-- One grammar, beside a configuration with narrower bends. -/
def configuredFiles : Files where
  nodes := ⟨[(Place.root.child "a.g4", .file "grammar a; b : 'c' | b ;".toUTF8),
    (Place.root.child "railyard", .directory),
    ((Place.root.child "railyard").child "config.toml",
      .file "[render]\narc_radius = 6\n[document]\ncross_links = false\n".toUTF8)]⟩
  workingDirectory := .root

def configuredArguments : Arguments where
  inputs := ["a.g4"]
  outputDirectory := "out"
  root := none
  writesSpecification := true
  settingsFile := none
  logLevel := "info"

theorem configuredFiles_isTree : configuredFiles.IsTree := by
  refine ⟨rfl, fun place member => ?_⟩
  simp only [configuredFiles, Catalog.keys, List.map_cons, List.map_nil, List.mem_cons,
    List.not_mem_nil, or_false] at member
  rcases member with rfl | rfl | rfl <;> rfl

/-- Whether the first worker of a run has a page after its first turn. -/
def makesPage (files : Files) (arguments : Arguments) : Bool :=
  match (prepare Disk.inMemory none arguments).run files, workersOf arguments.inputs with
  | (.ok setup, ready), worker :: _ => (Worker.turn setup (worker, ready)).1.stage.page?.isSome
  | _, _ => false

theorem settings_draw_configured :
    (∃ settings, Settings.standard.checked = .ok settings ∧ settings.Draws) ∧
    Returns (∀ settings, · = .ok settings → settings.Draws)
      (Settings.load Disk.inMemory none none) ∧
    (∃ settings after,
      (Settings.load Disk.inMemory none none).run configuredFiles = (.ok settings, after) ∧
        settings.crossLinks = false ∧ settings.Draws) ∧
    (∃ setup ready workers now,
      (prepare Disk.inMemory none configuredArguments).run configuredFiles = (.ok setup, ready) ∧
        Interleaving setup (workersOf configuredArguments.inputs, ready) (workers, now) ∧
        ∃ worker ∈ workers, ∃ page, worker.stage.page? = some page ∧
          page.failures = [] ∧ ¬Page.HasErrorRow page.html) ∧
    ∃ after, Ends none configuredArguments configuredFiles (.ok (), after) ∧
      ∀ place, after.bytes? place = configuredFiles.bytes? place ∨
        ∃ (stem name text : String) (page : GrammarPage),
          (page.failures = [] ∧ ¬Page.HasErrorRow page.html) ∧ page.Outputs stem name text ∧
            after.place (Path.join "out" name) = .ok place ∧
            after.bytes? place = some text.toUTF8 := by
  obtain ⟨checks, loads, remembers, runs⟩ := settings_draw
  obtain ⟨pages, outputs⟩ := runs none configuredArguments configuredFiles
  refine ⟨?_, loads (StateM Files) Disk.inMemory none none, ?_, ?_, ?_⟩
  · have ok : Settings.standard.checked.isOk = true := by decide +kernel
    cases passed : Settings.standard.checked with
    | error fault => rw [passed] at ok; cases ok
    | ok settings => exact ⟨settings, rfl, checks _ _ passed⟩
  · have read : ((Settings.load Disk.inMemory none none).run configuredFiles).1.toOption.map
        Settings.crossLinks = some false := by
      decide +kernel
    cases loaded : (Settings.load Disk.inMemory none none).run configuredFiles with
    | mk outcome after =>
        rw [loaded] at read
        cases outcome with
        | error failure => cases read
        | ok settings =>
            exact ⟨settings, after, rfl, Option.some.inj read, remembers _ _ _ _ _ loaded⟩
  · have makes : makesPage configuredFiles configuredArguments = true := by decide +kernel
    unfold makesPage at makes
    split at makes
    next setup ready worker rest prepared workers =>
      obtain ⟨page, made⟩ := Option.isSome_iff_exists.mp makes
      have turns : Interleaving setup ([] ++ worker :: rest, ready) _ := .step [] rest worker ready
      rw [List.nil_append, ← workers] at turns
      have member : (Worker.turn setup (worker, ready)).1 ∈
          (Worker.turn setup (worker, ready)).1 :: rest := List.mem_cons_self ..
      exact ⟨setup, ready, _, _, prepared, turns, _, member, page, made,
        pages _ _ _ _ prepared turns _ member page made⟩
    next => cases makes
  · have ok : ((run Disk.inMemory none configuredArguments).run configuredFiles).1.isOk = true := by
      decide +kernel
    have ends := run_ends none configuredArguments configuredFiles
    cases done : (run Disk.inMemory none configuredArguments).run configuredFiles with
    | mk result after =>
        rw [done] at ok ends
        cases result with
        | error failure => cases ok
        | ok _ => exact ⟨after, ends, outputs _ _ configuredFiles_isTree ends fun _ same => nomatch same⟩

end Railroad
