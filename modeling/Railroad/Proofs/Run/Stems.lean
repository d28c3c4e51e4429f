import Railroad.Proofs.Files.Paths
import Railroad.Run.Job

/-!
# Stems of jobs

A stem is claimed by the first input that has it, so no two jobs have outputs of the same name, and
what has the name of an output has the stem of its job.
-/

namespace Railroad

/-- The names of the outputs of a job. -/
inductive IsOutput (stem : String) : String → Prop where
  | page : IsOutput stem (pageName stem)
  | specification : IsOutput stem (specificationName stem)

theorem outputStem_toList (input : String) :
    (outputStem input).toList ≠ [] ∧ '/' ∉ (outputStem input).toList := by
  rw [outputStem, Path.stem?]
  cases named : Path.name? input with
  | none => decide
  | some name =>
      obtain ⟨plain, moves, -⟩ := Path.isName_of_name? named
      rw [Option.map_some, Option.getD_some]
      rcases Path.stemOf_cases name with same | ⟨front, rest, split, begun, same⟩
      · rw [same]
        refine ⟨fun nothing => ?_, plain⟩
        rw [String.toList_eq_nil_iff.mp nothing] at moves
        cases moves
      · rw [same, String.toList_ofList]
        exact ⟨begun, fun member => plain (split ▸ List.mem_append_left _ member)⟩

namespace IsOutput

variable {stem name : String}

/-- A name of an output is the stem with an ending behind its last dot. -/
theorem toList (output : IsOutput stem name) : ∃ ending, name.toList = stem.toList ++ '.' :: ending ∧
    '.' ∉ ending ∧ '/' ∉ ending ∧ ending ≠ [] := by
  cases output with
  | page => exact ⟨_, String.toList_append, by decide, by decide, by decide⟩
  | specification => exact ⟨_, String.toList_append, by decide, by decide, by decide⟩

theorem isName (output : IsOutput stem name) (plain : '/' ∉ stem.toList) : Path.IsName name := by
  obtain ⟨ending, split, noDot, noSlash, more⟩ := output.toList
  -- Its ending has something else than dots, which no way up and no idle piece has.
  obtain ⟨c, inside⟩ := List.exists_mem_of_ne_nil ending more
  have other : c ≠ '.' := fun dot => noDot (dot ▸ inside)
  have member : c ∈ name.toList := by
    rw [split]
    exact List.mem_append_right _ (List.mem_cons_of_mem _ inside)
  refine ⟨?_, Bool.eq_false_iff.mpr fun idle => ?_, ?_⟩
  · rw [split, List.mem_append, List.mem_cons]
    rintro (inStem | dot | inEnding)
    · exact plain inStem
    · cases dot
    · exact noSlash inEnding
  · rcases Bool.or_eq_true_iff.mp idle with empty | dot
    · rw [beq_iff_eq.mp empty] at member
      cases member
    · rw [beq_iff_eq.mp dot] at member
      exact other (List.mem_singleton.mp member)
  · rintro rfl
    rcases List.mem_cons.mp member with first | second
    · exact other first
    · exact other (List.mem_singleton.mp second)

theorem stemOf (output : IsOutput stem name) (begun : stem.toList ≠ []) :
    Path.stemOf name = stem := by
  obtain ⟨ending, split, noDot, -, -⟩ := output.toList
  rw [Path.stemOf_of_dot split noDot begun, String.ofList_toList]

end IsOutput

/-- An input that has the name of an output has its stem. -/
theorem outputStem_of_output {input stem name : String} (output : IsOutput stem name)
    (begun : stem.toList ≠ []) (named : Path.name? input = some name) :
    outputStem input = stem := by
  rw [outputStem, Path.stem?, named, Option.map_some, Option.getD_some, output.stemOf begun]

namespace Job

variable {claimed : Catalog String String} {inputs : List String}

theorem claimAll_inputs (claimed : Catalog String String) (inputs : List String) :
    (claimAll claimed inputs).map Job.input = inputs := by
  fun_induction claimAll claimed inputs with
  | case1 => rfl
  | case2 claimed input rest stem first taken ih => rw [List.map_cons, ih]
  | case3 claimed input rest stem free ih => rw [List.map_cons, ih]

theorem ofInputs_inputs (inputs : List String) : (ofInputs inputs).map Job.input = inputs :=
  claimAll_inputs .empty inputs

/-- A job has a stem only if it is its own and not claimed yet. -/
theorem claimAll_stem {job : Job} (member : job ∈ claimAll claimed inputs) {stem : String}
    (given : job.stem = .ok stem) : outputStem job.input = stem ∧ claimed.get? stem = none := by
  fun_induction claimAll claimed inputs with
  | case1 => cases member
  | case2 claimed input rest own first taken ih =>
      rcases List.mem_cons.mp member with rfl | later
      · cases given
      · exact ih later
  | case3 claimed input rest own free ih =>
      rcases List.mem_cons.mp member with rfl | later
      · obtain rfl : own = stem := Except.ok.inj given
        exact ⟨rfl, free⟩
      · obtain ⟨same, unclaimed⟩ := ih later
        refine ⟨same, ?_⟩
        rw [Catalog.get?_put] at unclaimed
        split at unclaimed
        · cases unclaimed
        · exact unclaimed

/-- A job has no stem only if it is taken. -/
theorem claimAll_taken {job : Job} (member : job ∈ claimAll claimed inputs) {fault : DiskFault}
    (given : job.stem = .error fault) : ∃ output first, fault = .outputTaken output first := by
  fun_induction claimAll claimed inputs with
  | case1 => cases member
  | case2 claimed input rest own first taken ih =>
      rcases List.mem_cons.mp member with rfl | later
      · exact ⟨pageName own, first, (Except.error.inj given).symm⟩
      · exact ih later
  | case3 claimed input rest own free ih =>
      rcases List.mem_cons.mp member with rfl | later
      · cases given
      · exact ih later

/-- No two jobs share a stem. -/
theorem claimAll_pairwise (claimed : Catalog String String) (inputs : List String) :
    (claimAll claimed inputs).Pairwise fun first second =>
      ∀ stem, first.stem = .ok stem → second.stem ≠ .ok stem := by
  fun_induction claimAll claimed inputs with
  | case1 => exact .nil
  | case2 claimed input rest own first taken ih =>
      exact .cons (fun _ _ stem given => nomatch given) ih
  | case3 claimed input rest own free ih =>
      refine .cons (fun job later stem given shared => ?_) ih
      obtain rfl : own = stem := Except.ok.inj given
      have unclaimed := (claimAll_stem later shared).2
      rw [Catalog.get?_put, if_pos rfl] at unclaimed
      cases unclaimed

/-- The job of an input: its stem, unless an earlier input has it, of which the first is named. -/
theorem claimAll_getElem? (claimed : Catalog String String) (before : List String) (input : String)
    (rest : List String) :
    (claimAll claimed (before ++ input :: rest))[before.length]? =
      some ⟨input, match (claimed.get? (outputStem input)).or
          (before.find? fun other => outputStem other == outputStem input) with
        | some first => .error (.outputTaken (pageName (outputStem input)) first)
        | none => .ok (outputStem input)⟩ := by
  induction before generalizing claimed with
  | nil =>
      rw [List.nil_append, claimAll, List.find?_nil, Option.or_none]
      cases claimed.get? (outputStem input) <;> rfl
  | cons other earlier ih =>
      rw [List.cons_append, claimAll, List.find?_cons]
      by_cases same : outputStem other = outputStem input
      · rw [same, beq_self_eq_true]
        split
        next first taken =>
          rw [List.length_cons, List.getElem?_cons_succ, ih, taken, Option.some_or, Option.some_or]
        next free =>
          rw [List.length_cons, List.getElem?_cons_succ, ih, Catalog.get?_put, if_pos rfl, free,
            Option.some_or, Option.none_or]
      · rw [beq_eq_false_iff_ne.mpr same]
        split
        · rw [List.length_cons, List.getElem?_cons_succ, ih]
        · rw [List.length_cons, List.getElem?_cons_succ, ih, Catalog.get?_put, if_neg (Ne.symm same)]

/-- An input whose stem belongs to an earlier one gets no stem. -/
theorem ofInputs_taken {before rest : List String} {input first : String}
    (taken : before.find? (fun other => outputStem other == outputStem input) = some first) :
    (ofInputs (before ++ input :: rest))[before.length]? =
      some ⟨input, .error (.outputTaken (pageName (outputStem input)) first)⟩ := by
  rw [ofInputs, claimAll_getElem?, taken]
  rfl

end Job

end Railroad
