import Mathlib.Data.List.Forall2
import Railroad.Proofs.Run.Alone
import Railroad.Run.Basic

/-!
# Interleaved workers

The workers of a run may take their turns in any order.  Whatever the order is, the files become
what they become when one worker after another does its job, and so do the failures, up to the
fault of an input that is missing and that an output comes to stand in the way of.
-/

namespace Railroad

open Worker (settle)

/-- Workers take turns in some order. -/
inductive Interleaving (setup : Job.Setup) : List Worker × Files → List Worker × Files → Prop where
  | stop (state : List Worker × Files) : Interleaving setup state state
  | turn {front back : List Worker} {worker : Worker} {files : Files} {state : List Worker × Files}
      (later : Interleaving setup (front ++ (Worker.turn setup (worker, files)).1 :: back,
        (Worker.turn setup (worker, files)).2) state) :
      Interleaving setup (front ++ worker :: back, files) state

theorem Interleaving.trans {setup : Job.Setup} {first middle last : List Worker × Files}
    (earlier : Interleaving setup first middle) (later : Interleaving setup middle last) :
    Interleaving setup first last := by
  induction earlier with
  | stop => exact later
  | turn _ ih => exact .turn (ih later)

/-- A worker is as far as it comes on its own. -/
def Follows (setup : Job.Setup) (ready files : Files) (job : Job) (worker : Worker) : Prop :=
  ∃ alone, settle setup alone = settle setup (.ofJob job, ready) ∧
    Worker.Coupled setup ready job (worker, files) alone

/-- Some turns have been taken since the files were ready. -/
structure Underway (setup : Job.Setup) (ready : Files) (jobs : List Job)
    (state : List Worker × Files) : Prop where
  outgrown : Outgrown setup.outputDirectory ready state.2
  elsewhere : ∀ place, (∀ job ∈ jobs, ¬job.Owns setup.outputDirectory ready place) →
    state.2.node? place = ready.node? place
  each : List.Forall₂ (Follows setup ready state.2) jobs state.1

/-- Jobs with stems of their own that no two of them share. -/
structure Job.Apart (jobs : List Job) : Prop where
  proper : ∀ job ∈ jobs, job.Proper
  distinct : jobs.Pairwise fun first second =>
    ∀ stem, first.stem = .ok stem → second.stem ≠ .ok stem

theorem Job.apart_ofInputs (inputs : List String) : Job.Apart (Job.ofInputs inputs) :=
  ⟨fun _ member _ given => (Job.claimAll_stem member given).1, Job.claimAll_pairwise .empty inputs⟩

/-- The places of the outputs of another job belong to it alone. -/
theorem Job.Apart.foreign {before after : List Job} {job other : Job} {directory : String}
    {ready : Files} {place : Place} (apart : Job.Apart (before ++ job :: after))
    (member : other ∈ before ∨ other ∈ after) (owns : other.Owns directory ready place) :
    ¬job.Owns directory ready place := by
  intro shared
  obtain ⟨distinctFront, distinctBack, across⟩ := List.pairwise_append.mp apart.distinct
  have proper : other.Proper := apart.proper other <| by
    rw [List.mem_append, List.mem_cons]
    exact member.imp_right Or.inr
  have properToo : job.Proper :=
    apart.proper job (List.mem_append_right _ (List.mem_cons_self ..))
  have same := Job.stem_of_owns proper properToo owns shared
  obtain ⟨stem, -, given, -, -⟩ := owns
  have givenToo := same.symm.trans given
  rcases member with earlier | later
  · exact across other earlier job (List.mem_cons_self ..) stem given givenToo
  · exact List.rel_of_pairwise_cons distinctBack later stem givenToo given

theorem forall₂_middle {α β : Type} {related : α → β → Prop} {items : List α} {front back : List β}
    {b : β} (each : List.Forall₂ related items (front ++ b :: back)) :
    ∃ before a after, items = before ++ a :: after ∧ List.Forall₂ related before front ∧
      related a b ∧ List.Forall₂ related after back := by
  obtain ⟨a, after, here, later, split⟩ :=
    List.forall₂_cons_right_iff.mp (List.forall₂_drop_append _ _ _ each)
  refine ⟨items.take front.length, a, after, ?_, List.forall₂_take_append _ _ _ each, here, later⟩
  rw [← split, List.take_append_drop]

namespace Underway

variable {setup : Job.Setup} {ready : Files} {jobs : List Job}

theorem start (setup : Job.Setup) (ready : Files) (jobs : List Job) :
    Underway setup ready jobs (jobs.map .ofJob, ready) where
  outgrown := .refl _ ready
  elsewhere _ _ := rfl
  each := by
    rw [List.forall₂_map_right_iff, List.forall₂_same]
    exact fun job _ => ⟨_, rfl, .start setup ready job⟩

theorem turn {front back : List Worker} {worker : Worker} {files : Files} (tree : ready.IsTree)
    (apart : Job.Apart jobs)
    (underway : Underway setup ready jobs (front ++ worker :: back, files)) :
    Underway setup ready jobs (front ++ (Worker.turn setup (worker, files)).1 :: back,
      (Worker.turn setup (worker, files)).2) := by
  obtain ⟨before, job, after, rfl, earlier, ⟨alone, same, coupled⟩, later⟩ :=
    forall₂_middle underway.each
  have member : job ∈ before ++ job :: after := List.mem_append_right _ (List.mem_cons_self ..)
  have proper := apart.proper job member
  have advances := Worker.turn_advances coupled.does proper underway.outgrown
  -- The files have changed at places of this job only, which no other worker asks for.
  have others {other : Job} {another : Worker} (foreign : other ∈ before ∨ other ∈ after)
      (follows : Follows setup ready files other another) :
      Follows setup ready (Worker.turn setup (worker, files)).2 other another := by
    obtain ⟨own, settled, coupled⟩ := follows
    exact ⟨own, settled, coupled.other advances.grown fun place owns =>
      advances.elsewhere place (apart.foreign foreign owns)⟩
  refine ⟨advances.outgrown, fun place free => ?_, List.rel_append ?_ (.cons ?_ ?_)⟩
  · rw [advances.elsewhere place (free job member)]
    exact underway.elsewhere place free
  · exact ((List.forall₂_and_left _ _).mpr ⟨fun _ => Or.inl, earlier⟩).imp fun _ _ both =>
      others both.1 both.2
  · exact ⟨Worker.turn setup alone, (Worker.settle_turn setup alone).trans same,
      coupled.turn tree proper underway.outgrown⟩
  · exact ((List.forall₂_and_left _ _).mpr ⟨fun _ => Or.inr, later⟩).imp fun _ _ both =>
      others both.1 both.2

theorem interleaving (tree : ready.IsTree) (apart : Job.Apart jobs)
    {state next : List Worker × Files} (underway : Underway setup ready jobs state)
    (turns : Interleaving setup state next) : Underway setup ready jobs next := by
  induction turns with
  | stop => exact underway
  | turn _ ih => exact ih (underway.turn tree apart)

/-- Every job has a worker. -/
theorem exists_worker {workers : List Worker} {files : Files}
    (underway : Underway setup ready jobs (workers, files)) {job : Job} (member : job ∈ jobs) :
    ∃ worker ∈ workers, Follows setup ready files job worker := by
  obtain ⟨before, after, rfl⟩ := List.mem_iff_append.mp member
  obtain ⟨front, worker, back, rfl, -, follows, -⟩ := forall₂_middle underway.each.flip
  exact ⟨worker, List.mem_append_right _ (List.mem_cons_self ..), follows⟩

/-- Every worker has a job. -/
theorem exists_job {workers : List Worker} {files : Files}
    (underway : Underway setup ready jobs (workers, files)) {worker : Worker}
    (member : worker ∈ workers) : ∃ job ∈ jobs, Follows setup ready files job worker := by
  obtain ⟨front, back, rfl⟩ := List.mem_iff_append.mp member
  obtain ⟨before, job, after, rfl, -, follows, -⟩ := forall₂_middle underway.each
  exact ⟨job, List.mem_append_right _ (List.mem_cons_self ..), follows⟩

theorem inputs {workers : List Worker} {files : Files}
    (underway : Underway setup ready jobs (workers, files)) :
    workers.map Worker.input = jobs.map Job.input := by
  have same : List.Forall₂ (· = ·) (workers.map Worker.input) (jobs.map Job.input) := by
    rw [List.forall₂_map_left_iff, List.forall₂_map_right_iff]
    exact underway.each.flip.imp fun _ _ ⟨_, _, coupled⟩ => coupled.does.input
  rwa [List.forall₂_eq_eq_eq] at same

end Underway

/-- All workers are done. -/
def AllEnded (workers : List Worker) : Prop :=
  ∀ worker ∈ workers, ∃ outcome, worker.stage = .ended outcome

section Finished

variable {setup : Job.Setup} {ready files : Files} {jobs : List Job} {workers : List Worker}
  {job : Job} {worker : Worker}

/-- A worker that is done has done what it does on its own. -/
theorem Follows.finished (follows : Follows setup ready files job worker)
    (ended : ∃ outcome, worker.stage = .ended outcome) :
    (worker = (settle setup (.ofJob job, ready)).1 ∨
        Worker.Blocked ready files worker (settle setup (.ofJob job, ready)).1) ∧
      ∀ place, job.Owns setup.outputDirectory ready place →
        files.node? place = (settle setup (.ofJob job, ready)).2.node? place := by
  obtain ⟨alone, same, coupled⟩ := follows
  have done : alone.1.stage.left = 0 := by
    rcases coupled.worker with equal | blocked
    · obtain ⟨outcome, stage⟩ := ended
      have stage : alone.1.stage = .ended outcome := equal ▸ stage
      rw [stage]
      rfl
    · rw [blocked.stageAlone]
      rfl
  rw [← same, Worker.settle_done done]
  exact ⟨coupled.worker, coupled.owned⟩

/-- A worker whose stem is taken fails with that. -/
theorem Follows.taken {output first : String} (follows : Follows setup ready files job worker)
    (ended : ∃ outcome, worker.stage = .ended outcome)
    (given : job.stem = .error (.outputTaken output first)) :
    worker = ⟨job.input, .ended (.error (.disk (.outputTaken output first)))⟩ := by
  have began : Worker.ofJob job =
      ⟨job.input, .ended (.error (.disk (.outputTaken output first)))⟩ := by
    rw [Worker.ofJob, given]
  have finished := (follows.finished ended).1
  rw [began, Worker.settle_done rfl] at finished
  rcases finished with same | blocked
  · exact same
  · cases blocked.stageAlone

theorem Underway.finished (underway : Underway setup ready jobs (workers, files))
    (ended : AllEnded workers) :
    List.Forall₂ (fun job worker => Follows setup ready files job worker ∧
      ∃ outcome, worker.stage = .ended outcome) jobs workers :=
  ((List.forall₂_and_left _ _).mpr ⟨ended, underway.each.flip⟩).flip.imp fun _ _ both => both.symm

end Finished

/--
Failures of one input in two runs.  An input that is missing before the run can fail in two ways
where the run writes a file in its way.
-/
inductive SameFailure (before after : Files) : String × Failure → String × Failure → Prop where
  | same (failed : String × Failure) : SameFailure before after failed failed
  | blocked {input : String} {fault other : DiskFault}
      (missing : before.readText input = .error .notFound)
      (inTheWay : after.readText input = .error .notDirectory)
      (first : fault ∈ [DiskFault.notFound, .notDirectory])
      (second : other ∈ [DiskFault.notFound, .notDirectory]) :
      SameFailure before after (input, .disk fault) (input, .disk other)

/-- Results of two runs that differ in the faults of such inputs at most. -/
inductive SameResult (before after : Files) :
    Except RunFailure Unit → Except RunFailure Unit → Prop where
  | ok : SameResult before after (.ok ()) (.ok ())
  | setup (failure : Failure) :
      SameResult before after (.error (.setup failure)) (.error (.setup failure))
  | inputs {failures others : List (String × Failure)} {total : Nat}
      (each : List.Forall₂ (SameFailure before after) failures others) :
      SameResult before after (.error (.inputs failures total)) (.error (.inputs others total))

theorem summary_alike {before after : Files} {workers others : List Worker}
    (each : List.Forall₂ (fun worker other =>
      Option.Rel (SameFailure before after) worker.failure? other.failure?) workers others) :
    SameResult before after (summary workers) (summary others) := by
  have failures : List.Forall₂ (SameFailure before after) (workers.filterMap Worker.failure?)
      (others.filterMap Worker.failure?) := List.rel_filterMap (fun _ _ alike => alike) each
  rw [summary, summary, each.length_eq]
  generalize workers.filterMap Worker.failure? = found at failures ⊢
  generalize others.filterMap Worker.failure? = foundToo at failures ⊢
  cases failures with
  | nil => exact .ok
  | cons first rest => exact .inputs (.cons first rest)

theorem forall₂_join {α β γ : Type} {one : α → β → Prop} {two : α → γ → Prop} {both : β → γ → Prop}
    {items : List α} {front : List β} {back : List γ} (first : List.Forall₂ one items front)
    (second : List.Forall₂ two items back)
    (join : ∀ a b c, one a b → two a c → both b c) : List.Forall₂ both front back := by
  induction first generalizing back with
  | nil =>
      cases second
      exact .nil
  | cons here _ ih =>
      cases second with
      | cons hereToo later => exact .cons (join _ _ _ here hereToo) (ih later)

section Orders

variable {setup : Job.Setup} {before ready files filesToo : Files} {jobs : List Job}
  {workers others : List Worker}

theorem Files.Grown.of_nodes (working : filesToo.workingDirectory = files.workingDirectory)
    (same : ∀ place, filesToo.node? place = files.node? place) : Files.Grown files filesToo :=
  ⟨working, fun place => Or.inl (same place)⟩

/-- When all workers are done, the files do not depend on the order of their turns. -/
theorem Underway.nodes (first : Underway setup ready jobs (workers, files))
    (second : Underway setup ready jobs (others, filesToo)) (ended : AllEnded workers)
    (endedToo : AllEnded others) (place : Place) : files.node? place = filesToo.node? place := by
  by_cases owned : ∃ job ∈ jobs, job.Owns setup.outputDirectory ready place
  · obtain ⟨job, member, owns⟩ := owned
    obtain ⟨worker, present, follows⟩ := first.exists_worker member
    obtain ⟨other, presentToo, followsToo⟩ := second.exists_worker member
    rw [(follows.finished (ended worker present)).2 place owns,
      (followsToo.finished (endedToo other presentToo)).2 place owns]
  · have free : ∀ job ∈ jobs, ¬job.Owns setup.outputDirectory ready place :=
      fun job member owns => owned ⟨job, member, owns⟩
    rw [first.elsewhere place free, second.elsewhere place free]

theorem Underway.failures (furnished : Files.Furnished before ready)
    (first : Underway setup ready jobs (workers, files))
    (second : Underway setup ready jobs (others, filesToo)) (ended : AllEnded workers)
    (endedToo : AllEnded others) :
    List.Forall₂ (fun worker other =>
      Option.Rel (SameFailure before files) worker.failure? other.failure?) workers others := by
  have working := second.outgrown.grown.working.trans first.outgrown.grown.working.symm
  have back : Files.Grown filesToo files :=
    .of_nodes working.symm fun place => first.nodes second ended endedToo place
  refine forall₂_join (first.finished ended) (second.finished endedToo)
    fun job worker other ⟨follows, done⟩ ⟨followsToo, doneToo⟩ => ?_
  have same := (follows.finished done).1
  have sameToo := (followsToo.finished doneToo).1
  generalize (settle setup (.ofJob job, ready)).1 = alone at same sameToo
  rcases same with rfl | blocked
  · rcases sameToo with rfl | blockedToo
    · cases other.failure? with
      | none => exact .none
      | some failed => exact .some (.same failed)
    · rw [blockedToo.failure?_alone, blockedToo.failure?_eq]
      exact .some (.blocked (furnished.readText_notFound blockedToo.missing)
        (back.readText_notDirectory blockedToo.blocked) (by decide) (by decide))
  · have missing := furnished.readText_notFound blocked.missing
    rcases sameToo with rfl | blockedToo
    · rw [blocked.failure?_alone, blocked.failure?_eq]
      exact .some (.blocked missing blocked.blocked (by decide) (by decide))
    · rw [blocked.failure?_eq, blockedToo.failure?_eq, blockedToo.input, ← blocked.input]
      exact .some (.same _)

end Orders

end Railroad
