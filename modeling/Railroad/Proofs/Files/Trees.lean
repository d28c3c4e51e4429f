import Railroad.Files.Disk
import Railroad.Proofs.Files.Paths

/-!
# Trees of files

Files form a tree when everything stands in a directory.  In a tree, a path to something that is
no directory ends in the name that it has there.  Files grow when new ones are written and old ones
are replaced, and they are furnished when directories are added; what a path leads to can then
change in few ways.
-/

namespace Railroad

namespace Files

/-- Everything stands in a directory, and the working directory is one. -/
structure IsTree (files : Files) : Prop where
  working : files.node? files.workingDirectory = some .directory
  parents : ∀ place ∈ files.nodes.keys, files.node? place.parent = some .directory

variable {files : Files} {place : Place}

theorem node?_root (files : Files) : files.node? .root = some .directory := if_pos rfl

theorem node?_put (other : place ≠ .root) (node : Node) (wanted : Place) :
    (files.put place node).node? wanted =
      if wanted = place then some node else files.node? wanted := by
  by_cases top : wanted = .root
  · subst top
    rw [node?_root, if_neg (Ne.symm other), node?_root]
  · simp only [node?, put, if_neg top, Catalog.get?_put]

theorem ne_root (other : files.node? place ≠ some .directory) : place ≠ .root := by
  rintro rfl
  exact other files.node?_root

theorem IsTree.parent (tree : files.IsTree) {node : Node} (stands : files.node? place = some node) :
    files.node? place.parent = some .directory := by
  by_cases top : place = .root
  · subst top
    exact files.node?_root
  · refine tree.parents place (Catalog.mem_keys.mpr ?_)
    rw [node?, if_neg top] at stands
    rw [stands]
    rfl

theorem IsTree.start (tree : files.IsTree) (path : String) :
    files.node? (files.start path) = some .directory := by
  rw [Files.start]
  split
  · exact files.node?_root
  · exact tree.working

theorem walk_append (files : Files) (place : Place) (front back : List String) :
    files.walk place (front ++ back) =
      match files.walk place front with
      | .error fault => .error fault
      | .ok next => files.walk next back := by
  induction front generalizing place with
  | nil => rfl
  | cons piece rest ih =>
      rw [List.cons_append, walk, walk]
      split
      · rfl
      · rfl
      · split
        · rfl
        · exact ih (follow place piece)

/-- A walk that arrives takes its last piece from a directory. -/
theorem walk_concat {start : Place} {front : List String} {piece : String}
    (arrives : files.walk start (front ++ [piece]) = .ok place) :
    ∃ above, files.walk start front = .ok above ∧ files.node? above = some .directory ∧
      place = follow above piece := by
  rw [walk_append] at arrives
  cases before : files.walk start front with
  | error fault =>
      rw [before] at arrives
      cases arrives
  | ok above =>
      rw [before] at arrives
      simp only [walk] at arrives
      split at arrives
      next => cases arrives
      next => cases arrives
      next directory =>
        split at arrives
        · cases arrives
        · cases arrives
          exact ⟨above, rfl, directory, rfl⟩

theorem follow_name {name : String} (named : Path.IsName name) :
    follow place name = place.child name := by
  obtain ⟨-, moves, down⟩ := named
  rw [follow, moves, if_neg Bool.false_ne_true, if_neg down]

theorem walk_of_place {path : String} (leads : files.place path = .ok place) :
    files.walk (files.start path) (Path.pieces path) = .ok place := by
  rw [Files.place] at leads
  split at leads
  · cases leads
  · exact leads

/-- A path to something that is no directory, or to nothing, ends in its name. -/
theorem IsTree.name? (tree : files.IsTree) {path : String} (leads : files.place path = .ok place)
    (other : files.node? place ≠ some .directory) :
    ∃ above : Place, ∃ name, place = above.child name ∧ Path.name? path = some name := by
  obtain ⟨front, piece, split⟩ := (List.eq_nil_or_concat (Path.pieces path)).resolve_left
    (Path.pieces_ne_nil path)
  rw [List.concat_eq_append] at split
  have arrives := walk_of_place leads
  rw [split] at arrives
  obtain ⟨above, -, directory, rfl⟩ := walk_concat arrives
  by_cases named : Path.IsName piece
  · exact ⟨above, piece, follow_name named, Path.name?_of_pieces split named⟩
  · -- An idle piece or a way up leads to a directory.
    refine absurd ?_ other
    have member : piece ∈ Path.pieces path :=
      split ▸ List.mem_append_right _ (List.mem_singleton_self _)
    rw [follow]
    split
    next => exact directory
    next moves =>
      split
      next => exact tree.parent directory
      next down =>
        exact absurd ⟨Path.not_mem_pieces member, Bool.eq_false_iff.mpr moves, down⟩ named

/-- A path of a name in a directory leads to what has this name there. -/
theorem place_join {directory name : String} (named : Path.IsName name)
    (leads : files.place (Path.join directory name) = .ok place) :
    ∃ above, files.walk (files.start directory) (Path.above directory) = .ok above ∧
      files.node? above = some .directory ∧ place = above.child name := by
  have arrives := walk_of_place leads
  rw [Files.start, Path.isAbsolute_join directory named.1, Path.pieces_join directory named.1]
    at arrives
  obtain ⟨above, before, stands, rfl⟩ := walk_concat arrives
  exact ⟨above, before, stands, follow_name named⟩

/-- Where a text for a path is written. -/
def slot (files : Files) (path : String) : Except DiskFault Place :=
  match files.place path with
  | .error fault => .error fault
  | .ok place =>
      match files.node? place with
      | some .directory => .error .isDirectory
      | _ => .ok place

theorem slot_eq_ok {path : String} : files.slot path = .ok place ↔
    files.place path = .ok place ∧ files.node? place ≠ some .directory := by
  rw [slot]
  split
  next fault leads =>
    rw [leads]
    exact iff_of_false (fun same => nomatch same) fun both => nomatch both.1
  next other leads =>
    rw [leads]
    constructor
    · intro free
      split at free
      next => cases free
      next different =>
        cases free
        exact ⟨rfl, different⟩
    · rintro ⟨same, different⟩
      cases same
      split
      next directory => exact absurd directory different
      next => rfl

theorem writeText_eq (files : Files) (path text : String) : files.writeText path text =
    (files.slot path).map fun place => files.put place (.file text.toUTF8) := by
  rw [writeText, slot]
  cases files.place path with
  | error fault => rfl
  | ok place =>
      dsimp only
      cases files.node? place with
      | none => rfl
      | some node => cases node <;> rfl

/-! ## Growth -/

/-- New files are written, and old ones are replaced. -/
structure Grown (before after : Files) : Prop where
  working : after.workingDirectory = before.workingDirectory
  nodes : ∀ place, after.node? place = before.node? place ∨
    before.node? place ≠ some .directory ∧ ∃ bytes, after.node? place = some (.file bytes)

namespace Grown

variable {before middle after : Files}

theorem refl (files : Files) : Grown files files := ⟨rfl, fun _ => Or.inl rfl⟩

theorem trans (first : Grown before middle) (second : Grown middle after) :
    Grown before after := by
  refine ⟨second.working.trans first.working, fun place => ?_⟩
  rcases second.nodes place with same | ⟨other, written⟩
  · rw [same]
    exact first.nodes place
  · refine Or.inr ⟨fun directory => other ?_, written⟩
    rcases first.nodes place with same | ⟨another, -⟩
    · exact same.trans directory
    · exact absurd directory another

theorem put (other : files.node? place ≠ some .directory) (bytes : ByteArray) :
    Grown files (files.put place (.file bytes)) := by
  refine ⟨rfl, fun wanted => ?_⟩
  rw [node?_put (ne_root other)]
  by_cases same : wanted = place
  · subst same
    exact Or.inr ⟨other, bytes, if_pos rfl⟩
  · exact Or.inl (if_neg same)

theorem directory_iff (grown : Grown before after) :
    after.node? place = some .directory ↔ before.node? place = some .directory := by
  rcases grown.nodes place with same | ⟨other, bytes, written⟩
  · rw [same]
  · rw [written]
    exact iff_of_false (fun same => Node.noConfusion (Option.some.inj same)) other

theorem start (grown : Grown before after) (path : String) :
    after.start path = before.start path := by
  rw [Files.start, Files.start, grown.working]

/-- Where a walk ended for want of a file, a file that is no directory may stand now. -/
theorem walk_cases (grown : Grown before after) (place : Place) (pieces : List String) :
    after.walk place pieces = before.walk place pieces ∨
      before.walk place pieces = .error .notFound ∧
        after.walk place pieces = .error .notDirectory := by
  induction pieces generalizing place with
  | nil => exact Or.inl rfl
  | cons piece rest ih =>
      rw [Files.walk, Files.walk]
      rcases grown.nodes place with same | ⟨other, bytes, written⟩
      · rw [same]
        split
        · exact Or.inl rfl
        · exact Or.inl rfl
        · split
          · exact Or.inl rfl
          · exact ih (follow place piece)
      · rw [written]
        cases stood : before.node? place with
        | none => exact Or.inr ⟨rfl, rfl⟩
        | some node =>
            cases node with
            | file bytes => exact Or.inl rfl
            | directory => exact absurd stood other

theorem place_cases (grown : Grown before after) (path : String) :
    after.place path = before.place path ∨
      before.place path = .error .notFound ∧ after.place path = .error .notDirectory := by
  rw [Files.place, Files.place, grown.start]
  split
  · exact Or.inl rfl
  · exact grown.walk_cases _ _

/-- A text is read as before, unless something else stands at its place or in its way. -/
theorem readText_cases (grown : Grown before after) (path : String)
    (same : ∀ place, before.place path = .ok place → after.node? place = before.node? place) :
    after.readText path = before.readText path ∨
      before.readText path = .error .notFound ∧ after.readText path = .error .notDirectory := by
  rcases grown.place_cases path with equal | ⟨missing, blocked⟩
  · have found : after.find path = before.find path := by
      rw [find, find, equal]
      cases leads : before.place path with
      | error fault => rfl
      | ok place => simp only [same place leads]
    exact Or.inl (by rw [Files.readText, Files.readText, found])
  · refine Or.inr ⟨?_, ?_⟩
    · rw [Files.readText, find, missing]
    · rw [Files.readText, find, blocked]

/-- What is no directory in the way of a path stays in its way. -/
theorem readText_notDirectory (grown : Grown before after) {path : String}
    (blocked : before.readText path = .error .notDirectory) :
    after.readText path = .error .notDirectory := by
  -- A path that leads somewhere has nothing in its way.
  have lost (place : Place) : before.place path ≠ .ok place := by
    intro leads
    rw [readText, find, leads] at blocked
    dsimp only at blocked
    split at blocked
    next failed =>
      split at failed <;> cases failed
      cases blocked
    next => cases blocked
    next => split at blocked <;> cases blocked
  rcases grown.readText_cases path fun place leads => absurd leads (lost place) with
    same | ⟨missing, -⟩
  · exact same.trans blocked
  · cases missing.symm.trans blocked

end Grown

/-- Directories are added. -/
structure Furnished (before after : Files) : Prop where
  working : after.workingDirectory = before.workingDirectory
  nodes : ∀ place, after.node? place = before.node? place ∨
    before.node? place = none ∧ after.node? place = some .directory

namespace Furnished

variable {before middle after : Files}

theorem refl (files : Files) : Furnished files files := ⟨rfl, fun _ => Or.inl rfl⟩

theorem trans (first : Furnished before middle) (second : Furnished middle after) :
    Furnished before after := by
  refine ⟨second.working.trans first.working, fun place => ?_⟩
  rcases second.nodes place with same | ⟨free, directory⟩
  · rw [same]
    exact first.nodes place
  · refine Or.inr ⟨?_, directory⟩
    rcases first.nodes place with same | ⟨unset, set⟩
    · exact same.symm.trans free
    · exact unset

theorem put (free : files.node? place = none) : Furnished files (files.put place .directory) := by
  have other : place ≠ .root := ne_root (free ▸ Option.some_ne_none _ ∘ Eq.symm)
  refine ⟨rfl, fun wanted => ?_⟩
  rw [node?_put other]
  by_cases same : wanted = place
  · subst same
    exact Or.inr ⟨free, if_pos rfl⟩
  · exact Or.inl (if_neg same)

/-- A walk among the furniture goes as before, unless it ended for want of a directory. -/
theorem walk_cases (furnished : Furnished before after) (place : Place) (pieces : List String) :
    before.walk place pieces = after.walk place pieces ∨
      before.walk place pieces = .error .notFound := by
  induction pieces generalizing place with
  | nil => exact Or.inl rfl
  | cons piece rest ih =>
      rw [walk, walk]
      rcases furnished.nodes place with same | ⟨free, -⟩
      · rw [same]
        split
        · exact Or.inl rfl
        · exact Or.inl rfl
        · split
          · exact Or.inl rfl
          · exact ih (follow place piece)
      · rw [free]
        exact Or.inr rfl

/-- What is not found among the furniture was not there before. -/
theorem readText_notFound (furnished : Furnished before after) {path : String}
    (missing : after.readText path = .error .notFound) :
    before.readText path = .error .notFound := by
  have start : before.start path = after.start path := by
    rw [Files.start, Files.start, furnished.working]
  have found : after.find path = .error .notFound := by
    rw [readText] at missing
    split at missing
    next failed => rwa [Except.error.inj missing] at failed
    next => cases missing
    next => split at missing <;> cases missing
  have absent : before.find path = .error .notFound := by
    rw [find, Files.place] at found ⊢
    cases usable : checkPath path with
    | error fault =>
        rw [usable] at found
        exact found
    | ok _ =>
        rw [usable] at found
        simp only [start] at found ⊢
        rcases furnished.walk_cases (after.start path) (Path.pieces path) with same | lost
        · rw [same]
          split at found
          next => exact found
          next place leads =>
            rcases furnished.nodes place with same | ⟨free, -⟩
            · rwa [same] at found
            · rw [free]
        · rw [lost]
  rw [readText, absent]

end Furnished

theorem IsTree.put (tree : files.IsTree) (free : files.node? place = none)
    (within : files.node? place.parent = some .directory) :
    (files.put place .directory).IsTree := by
  have kept {other : Place} (stands : files.node? other = some .directory) :
      (files.put place .directory).node? other = some .directory := by
    rcases (Furnished.put free).nodes other with same | ⟨-, directory⟩
    · exact same.trans stands
    · exact directory
  refine ⟨kept tree.working, fun other member => ?_⟩
  rw [Files.put, Catalog.keys_put] at member
  split at member
  · exact kept (tree.parents other member)
  · rcases List.mem_append.mp member with old | new
    · exact kept (tree.parents other old)
    · rw [List.mem_singleton.mp new]
      exact kept within

theorem descend_furnished {lastIsThere made : Bool} {steps : List String} {changed : Files}
    (tree : files.IsTree) (stands : files.node? place = some .directory)
    (done : files.descend lastIsThere made place steps = .ok changed) :
    Furnished files changed ∧ changed.IsTree := by
  fun_induction descend lastIsThere made files place steps with
  | case1 =>
      cases done
      exact ⟨.refl _, tree⟩
  | case2 made files place rest ih => exact ih tree (tree.parent stands) done
  | case4 made files place piece rest _ _ next directory ih => exact ih tree directory done
  | case9 made files place piece rest _ _ next free _ ih =>
      have within : files.node? next.parent = some .directory := by
        rw [Place.parent_child]
        exact stands
      have stands : (files.put next .directory).node? next = some .directory := by
        rw [node?_put (ne_root (free ▸ Option.some_ne_none _ ∘ Eq.symm)), if_pos rfl]
      obtain ⟨furnished, tree⟩ := ih (tree.put free within) stands done
      exact ⟨(Furnished.put free).trans furnished, tree⟩
  | case3 | case5 | case6 | case7 | case8 => cases done

theorem createDirectories_furnished {path : String} {changed : Files} (tree : files.IsTree)
    (done : files.createDirectories path = .ok changed) :
    Furnished files changed ∧ changed.IsTree := by
  rw [createDirectories] at done
  split at done
  · cases done
    exact ⟨.refl files, tree⟩
  · split at done
    · cases done
    · exact descend_furnished tree (tree.start path) done

end Files

end Railroad
