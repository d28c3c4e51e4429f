import Mathlib.Data.List.Induction
import Mathlib.Data.List.Perm.Subperm
import Railroad.Proofs.Diagram.References

/-!
# Sets of edges

Edges that are added to an empty graph form a set that keeps the order in which they came.  A graph
is known by its rules and by the targets of each rule; what one addition does to these is said
first, and what a whole list of additions leads to follows from the end of the list.
-/

namespace Railroad

theorem eraseDups_concat {α : Type} [DecidableEq α] (items : List α) (item : α) :
    (items ++ [item]).eraseDups =
      if item ∈ items then items.eraseDups else items.eraseDups ++ [item] := by
  rw [List.eraseDups_append, List.removeAll, List.filter_singleton]
  by_cases known : item ∈ items
  · simp [known]
  · simp [known, List.eraseDups_cons]

namespace Catalog

variable {κ α : Type} [DecidableEq κ]

/-- A catalog whose names are apart lists exactly what is found in it. -/
theorem mem_entries_iff {catalog : Catalog κ α} (apart : catalog.keys.Nodup) {name : κ} {value : α} :
    (name, value) ∈ catalog.entries ↔ catalog.get? name = some value := by
  rw [get?, List.lookup_eq_some_iff]
  constructor
  · intro member
    obtain ⟨before, after, split⟩ := List.append_of_mem member
    rw [keys, split, List.map_append, List.map_cons] at apart
    refine ⟨before, after, split, fun entry earlier => bne_iff_ne.mpr fun same => ?_⟩
    exact List.disjoint_of_nodup_append apart (List.mem_map_of_mem earlier)
      (same ▸ List.mem_cons_self ..)
  · rintro ⟨before, after, split, -⟩
    rw [split]
    exact List.mem_append_right _ (List.mem_cons_self ..)

section NewName

variable {entries : List (κ × α)} {name : κ} (new : name ∉ entries.map Prod.fst)

include new

/-- What does not hold the name is passed over. -/
theorem enter_append (value : α) (rest : List (κ × α)) :
    enter name value (entries ++ rest) = entries ++ enter name value rest := by
  induction entries with
  | nil => rfl
  | cons entry others ih =>
      rw [List.map_cons, List.mem_cons, not_or] at new
      rw [List.cons_append, enter, if_neg (Ne.symm new.1), ih new.2, List.cons_append]

theorem lookup_of_not_mem : entries.lookup name = none :=
  List.lookup_eq_none_iff.mpr fun _ listed => bne_iff_ne.mpr fun same =>
    new (same ▸ List.mem_map_of_mem listed)

end NewName

end Catalog

namespace ReferenceGraph

theorem fresh_nil (names : List String) : fresh [] names = names.eraseDups := by
  induction names using List.reverseRecOn with
  | nil => rfl
  | append_singleton names name ih =>
      rw [fresh_append, List.nil_append, eraseDups_concat, ih]
      by_cases known : name ∈ names
      · rw [if_pos known, fresh, if_pos (List.mem_eraseDups.mpr known), fresh, List.append_nil]
      · rw [if_neg known, fresh, if_neg (mt List.mem_eraseDups.mp known), fresh]

variable {graph : ReferenceGraph} {source target rule : String}

theorem targetsOf_of_not_mem (unknown : rule ∉ graph.targets.keys) : graph.targetsOf rule = [] := by
  rw [targetsOf, Catalog.get?, Catalog.lookup_of_not_mem unknown, Option.getD_none]

theorem hasRule_iff_mem : graph.hasRule rule = true ↔ rule ∈ graph.targets.keys :=
  Catalog.mem_keys.symm

theorem mem_keys_of_hasEdge (known : graph.hasEdge source target = true) :
    source ∈ graph.targets.keys := by
  by_contra unknown
  rw [hasEdge_iff, targetsOf_of_not_mem unknown] at known
  cases known

theorem keys_addEdge : (graph.addEdge source target).targets.keys =
    if source ∈ graph.targets.keys then graph.targets.keys
    else graph.targets.keys ++ [source] := by
  by_cases known : graph.hasEdge source target = true
  · rw [addEdge, if_pos known, if_pos (mem_keys_of_hasEdge known)]
  · rw [addEdge, if_neg known, Catalog.keys_put]

/-- Number of targets in all entries. -/
def targetCount (entries : List (String × List String)) : Nat :=
  (entries.map fun entry => entry.2.length).foldr (· + ·) 0

theorem edgeCount_eq : graph.edgeCount = targetCount graph.targets.entries := by
  rw [edgeCount, Catalog.values, List.map_map]
  rfl

theorem targetCount_enter (entries : List (String × List String)) (name : String)
    (targets : List String) :
    targetCount (Catalog.enter name targets entries) +
        ((entries.lookup name).getD []).length =
      targetCount entries + targets.length := by
  induction entries with
  | nil => simp [Catalog.enter, targetCount]
  | cons entry rest ih =>
      obtain ⟨other, old⟩ := entry
      by_cases here : other = name
      · subst here
        simp only [Catalog.enter, List.lookup_cons_self, if_true, Option.getD_some, targetCount,
          List.map_cons, List.foldr_cons]
        omega
      · have passed : (name == other) = false := beq_eq_false_iff_ne.mpr (Ne.symm here)
        simp only [targetCount] at ih
        simp only [Catalog.enter, List.lookup_cons, passed, if_neg here, targetCount, List.map_cons,
          List.foldr_cons]
        omega

theorem edgeCount_addEdge : (graph.addEdge source target).edgeCount =
    graph.edgeCount + if graph.hasEdge source target then 0 else 1 := by
  by_cases known : graph.hasEdge source target = true
  · rw [addEdge, if_pos known, if_pos known, Nat.add_zero]
  · rw [addEdge, if_neg known, if_neg known, edgeCount_eq, edgeCount_eq]
    have replaced := targetCount_enter graph.targets.entries source
      (graph.targetsOf source ++ [target])
    rw [List.length_append, List.length_singleton] at replaced
    have old : graph.targetsOf source =
        (graph.targets.entries.lookup source).getD [] := rfl
    rw [← old] at replaced
    simp only [Catalog.put]
    omega

/-- Rules and targets are listed once, and rules only with targets. -/
structure Proper (graph : ReferenceGraph) : Prop where
  rules : graph.targets.keys.Nodup
  targets : ∀ rule, (graph.targetsOf rule).Nodup
  filled : graph.Filled

namespace Proper

theorem empty : ReferenceGraph.empty.Proper where
  rules := List.nodup_nil
  targets _ := List.nodup_nil
  filled _ none := Bool.noConfusion none

theorem addEdge (proper : graph.Proper) : (graph.addEdge source target).Proper where
  rules := by
    rw [keys_addEdge]
    split
    next => exact proper.rules
    next new =>
      rw [← List.concat_eq_append]
      exact proper.rules.concat new
  targets rule := by
    rw [targetsOf_addEdge]
    split
    · refine (proper.targets source).append (nodup_fresh _ _) fun name old new => ?_
      exact (mem_fresh.mp new).2 old
    · exact proper.targets rule
  filled := proper.filled.addEdge

theorem mem_keys_iff (proper : graph.Proper) :
    rule ∈ graph.targets.keys ↔ ∃ target, target ∈ graph.targetsOf rule := by
  rw [← hasRule_iff_mem, proper.filled.hasRule_iff]
  exact ⟨List.exists_mem_of_ne_nil _, fun ⟨_, listed⟩ => List.ne_nil_of_mem listed⟩

theorem mem_entries_iff (proper : graph.Proper) {targets : List String} :
    (rule, targets) ∈ graph.targets.entries ↔ targets ≠ [] ∧ graph.targetsOf rule = targets := by
  rw [Catalog.mem_entries_iff proper.rules]
  constructor
  · intro found
    have known : graph.targetsOf rule = targets := by rw [targetsOf, found, Option.getD_some]
    exact ⟨known ▸ proper.filled rule (by rw [hasRule, Catalog.contains, found]; rfl), known⟩
  · rintro ⟨some, rfl⟩
    cases found : graph.targets.get? rule with
    | none => exact absurd (by rw [targetsOf, found, Option.getD_none]) some
    | some targets => rw [targetsOf, found, Option.getD_some]

end Proper

section Added

variable {added others : List (String × String)}

/-- The targets that were added to a rule. -/
def targetsAmong (rule : String) (added : List (String × String)) : List String :=
  (added.filter fun edge => edge.1 == rule).map Prod.snd

theorem ofEdges_concat (added : List (String × String)) (edge : String × String) :
    ofEdges (added ++ [edge]) = (ofEdges added).addEdge edge.1 edge.2 :=
  List.foldl_concat ..

theorem Proper.ofEdges (added : List (String × String)) : (ofEdges added).Proper := by
  induction added using List.reverseRecOn with
  | nil => exact .empty
  | append_singleton added edge ih => exact ofEdges_concat added edge ▸ ih.addEdge

theorem keys_ofEdges (added : List (String × String)) :
    (ofEdges added).targets.keys = (added.map Prod.fst).eraseDups := by
  induction added using List.reverseRecOn with
  | nil => rfl
  | append_singleton added edge ih =>
      rw [ofEdges_concat, keys_addEdge, ih, List.map_append, List.map_singleton, eraseDups_concat]
      simp only [List.mem_eraseDups]

theorem targetsOf_ofEdges (added : List (String × String)) (rule : String) :
    (ofEdges added).targetsOf rule = (targetsAmong rule added).eraseDups := by
  induction added using List.reverseRecOn with
  | nil => rfl
  | append_singleton added edge ih =>
      obtain ⟨source, target⟩ := edge
      rw [ofEdges_concat, targetsOf_addEdge]
      by_cases here : rule = source
      · subst here
        have names : targetsAmong rule (added ++ [(rule, target)]) =
            targetsAmong rule added ++ [target] := by
          simp [targetsAmong]
        rw [if_pos rfl, ih, names, eraseDups_concat]
        by_cases known : target ∈ targetsAmong rule added
        · rw [if_pos known, fresh, if_pos (List.mem_eraseDups.mpr known), fresh, List.append_nil]
        · rw [if_neg known, fresh, if_neg (mt List.mem_eraseDups.mp known), fresh]
      · have names : targetsAmong rule (added ++ [(source, target)]) = targetsAmong rule added := by
          simp [targetsAmong, Ne.symm here]
        rw [if_neg here, ih, names]

theorem mem_targetsOf_ofEdges :
    target ∈ (ofEdges added).targetsOf rule ↔ (rule, target) ∈ added := by
  rw [targetsOf_ofEdges, List.mem_eraseDups, targetsAmong]
  simp

theorem hasEdge_ofEdges :
    (ofEdges added).hasEdge source target = decide ((source, target) ∈ added) := by
  rw [Bool.eq_iff_iff, hasEdge_iff, mem_targetsOf_ofEdges, decide_eq_true_iff]

theorem putEdges_snd (graph : ReferenceGraph) (added : List (String × String)) :
    (graph.putEdges added).2 = added.foldl (fun graph edge => graph.addEdge edge.1 edge.2) graph := by
  induction added generalizing graph with
  | nil => rfl
  | cons edge rest ih => exact ih _

/-- An answer does not depend on what is added later. -/
theorem putEdges_answers (before added : List (String × String)) :
    ((ofEdges before).putEdges added).1 =
      added.mapIdx fun place edge => decide (edge ∉ before ++ added.take place) := by
  induction added generalizing before with
  | nil => rfl
  | cons edge rest ih =>
      have later := ih (before ++ [edge])
      rw [ofEdges_concat] at later
      have regroup (place : Nat) : before ++ edge :: rest.take place =
          before ++ [edge] ++ rest.take place := List.append_cons ..
      rw [List.mapIdx_cons, putEdges, putEdge, List.take_zero, List.append_nil, hasEdge_ofEdges]
      simp only [List.take_succ_cons, regroup]
      rw [← later, decide_not]

theorem edgeCount_putEdges (graph : ReferenceGraph) (added : List (String × String)) :
    (graph.putEdges added).2.edgeCount = graph.edgeCount + (graph.putEdges added).1.count true := by
  induction added generalizing graph with
  | nil => rfl
  | cons edge rest ih =>
      obtain ⟨source, target⟩ := edge
      simp only [putEdges, putEdge, List.count_cons, ih, edgeCount_addEdge]
      cases graph.hasEdge source target
      · simp only [Bool.not_false, beq_self_eq_true, if_true, Bool.false_eq_true, if_false]
        omega
      · simp

end Added

section Rebuilding

variable {entries : List (String × List String)}

theorem addEdge_first (new : source ∉ entries.map Prod.fst) :
    addEdge ⟨⟨entries⟩⟩ source target = ⟨⟨entries ++ [(source, [target])]⟩⟩ := by
  have none : targetsOf ⟨⟨entries⟩⟩ source = [] := targetsOf_of_not_mem new
  have missing : hasEdge ⟨⟨entries⟩⟩ source target = false := by
    rw [hasEdge, none]
    rfl
  have behind := Catalog.enter_append new [target] []
  rw [List.append_nil] at behind
  rw [addEdge, missing, if_neg Bool.false_ne_true, none, List.nil_append, Catalog.put, behind]
  rfl

theorem addEdge_last {targets : List String} (new : source ∉ entries.map Prod.fst)
    (missing : target ∉ targets) :
    addEdge ⟨⟨entries ++ [(source, targets)]⟩⟩ source target =
      ⟨⟨entries ++ [(source, targets ++ [target])]⟩⟩ := by
  have known : targetsOf ⟨⟨entries ++ [(source, targets)]⟩⟩ source = targets := by
    rw [targetsOf, Catalog.get?, List.lookup_append, Catalog.lookup_of_not_mem new, Option.none_or,
      List.lookup_cons_self, Option.getD_some]
  have notYet : ¬hasEdge ⟨⟨entries ++ [(source, targets)]⟩⟩ source target = true := by
    rwa [hasEdge_iff, known]
  rw [addEdge, if_neg notYet, known, Catalog.put, Catalog.enter_append new, Catalog.enter,
    if_pos rfl]

theorem addEdges_last {first second : List String} (new : source ∉ entries.map Prod.fst)
    (apart : (first ++ second).Nodup) :
    addEdges ⟨⟨entries ++ [(source, first)]⟩⟩ source second =
      ⟨⟨entries ++ [(source, first ++ second)]⟩⟩ := by
  induction second generalizing first with
  | nil => rw [List.append_nil]; rfl
  | cons target rest ih =>
      have missing : target ∉ first := fun known =>
        List.disjoint_of_nodup_append apart known (List.mem_cons_self ..)
      rw [List.append_cons] at apart
      rw [List.append_cons first, ← ih apart, ← addEdge_last new missing]
      rfl

/-- A rule that comes with all its targets is put behind the other rules. -/
theorem addEdges_new {targets : List String} (new : source ∉ entries.map Prod.fst)
    (apart : targets.Nodup) (some : targets ≠ []) :
    addEdges ⟨⟨entries⟩⟩ source targets = ⟨⟨entries ++ [(source, targets)]⟩⟩ := by
  cases targets with
  | nil => exact absurd rfl some
  | cons target rest =>
      have later : addEdges ⟨⟨entries ++ [(source, [target])]⟩⟩ source rest =
          ⟨⟨entries ++ [(source, target :: rest)]⟩⟩ := addEdges_last new apart
      rw [← later, ← addEdge_first new]
      rfl

theorem addEdges_entries (front : List (String × List String)) {back : List (String × List String)}
    (rules : ((front ++ back).map Prod.fst).Nodup)
    (filled : ∀ entry ∈ back, entry.2.Nodup ∧ entry.2 ≠ []) :
    back.foldl (fun graph entry => addEdges graph entry.1 entry.2) ⟨⟨front⟩⟩ =
      ⟨⟨front ++ back⟩⟩ := by
  induction back generalizing front with
  | nil => rw [List.append_nil]; rfl
  | cons entry rest ih =>
      obtain ⟨here, later⟩ := List.forall_mem_cons.mp filled
      have new : entry.1 ∉ front.map Prod.fst := by
        rw [List.map_append] at rules
        exact fun known => List.disjoint_of_nodup_append rules known (List.mem_cons_self ..)
      rw [List.append_cons] at rules ⊢
      rw [List.foldl_cons, addEdges_new new here.1 here.2]
      exact ih _ rules later

/-- The edges of a graph, added in the order in which it lists them, make the same graph again. -/
theorem Proper.rebuilt (proper : graph.Proper) : ReferenceGraph.ofEdges graph.edges = graph := by
  have filled : ∀ entry ∈ graph.targets.entries, entry.2.Nodup ∧ entry.2 ≠ [] := by
    intro entry listed
    obtain ⟨some, targets⟩ := proper.mem_entries_iff.mp listed
    exact ⟨targets ▸ proper.targets entry.1, some⟩
  rw [ReferenceGraph.ofEdges, edges, List.foldl_flatMap]
  simp only [List.foldl_map]
  exact addEdges_entries [] proper.rules filled

end Rebuilding

theorem sameNames_iff {first second : List String} (apart : first.Nodup) (apartToo : second.Nodup) :
    sameNames first second = true ↔ ∀ name, name ∈ first ↔ name ∈ second := by
  rw [← List.perm_ext_iff_of_nodup apart apartToo, sameNames, Bool.and_eq_true, beq_iff_eq,
    List.all_eq_true]
  simp only [List.contains_iff_mem]
  constructor
  · rintro ⟨long, inside⟩
    exact (List.subperm_of_subset apart inside).perm_of_length_le (Nat.le_of_eq long.symm)
  · intro same
    exact ⟨same.length_eq, fun name listed => same.subset listed⟩

section Agreement

variable {first second : ReferenceGraph}

theorem agrees_eq : first.agrees second = true ↔ first.size = second.size ∧
    ∀ rule targets, (rule, targets) ∈ first.targets.entries →
      ∃ others, second.targets.get? rule = some others ∧ sameNames targets others = true := by
  rw [agrees, Bool.and_eq_true, beq_iff_eq, List.all_eq_true]
  simp only [Prod.forall, Option.any_eq_true]

theorem size_eq (graph : ReferenceGraph) : graph.size = graph.targets.keys.length :=
  (List.length_map _).symm

/-- Graphs agree if every rule has the same targets in both. -/
theorem Proper.agrees_iff (firstProper : first.Proper) (secondProper : second.Proper) :
    first.agrees second = true ↔
      ∀ rule target, target ∈ first.targetsOf rule ↔ target ∈ second.targetsOf rule := by
  rw [agrees_eq, size_eq, size_eq]
  constructor
  · rintro ⟨sizes, same⟩ rule target
    have inside : first.targets.keys ⊆ second.targets.keys := by
      intro name known
      obtain ⟨⟨_, targets⟩, listed, rfl⟩ := List.mem_map.mp known
      obtain ⟨others, found, -⟩ := same _ _ listed
      rw [Catalog.mem_keys, found]
      rfl
    have rules : rule ∈ first.targets.keys ↔ rule ∈ second.targets.keys :=
      ((List.subperm_of_subset firstProper.rules inside).perm_of_length_le
        (Nat.le_of_eq sizes.symm)).mem_iff
    by_cases known : rule ∈ first.targets.keys
    · have filled := firstProper.filled rule (hasRule_iff_mem.mpr known)
      obtain ⟨others, found, names⟩ :=
        same rule _ (firstProper.mem_entries_iff.mpr ⟨filled, rfl⟩)
      have listed : second.targetsOf rule = others := by rw [targetsOf, found, Option.getD_some]
      rw [← listed] at names
      exact (sameNames_iff (firstProper.targets rule) (secondProper.targets rule)).mp names target
    · rw [targetsOf_of_not_mem known, targetsOf_of_not_mem (mt rules.mpr known)]
  · intro same
    have rules (rule : String) : rule ∈ first.targets.keys ↔ rule ∈ second.targets.keys := by
      rw [firstProper.mem_keys_iff, secondProper.mem_keys_iff]
      exact exists_congr fun target => same rule target
    refine ⟨((List.perm_ext_iff_of_nodup firstProper.rules secondProper.rules).mpr rules).length_eq,
      fun rule targets listed => ?_⟩
    obtain ⟨some, rfl⟩ := firstProper.mem_entries_iff.mp listed
    have known := (rules rule).mp (List.mem_map.mpr ⟨_, listed, rfl⟩)
    obtain ⟨others, found⟩ := Option.isSome_iff_exists.mp (Catalog.mem_keys.mp known)
    have listedToo : second.targetsOf rule = others := by rw [targetsOf, found, Option.getD_some]
    refine ⟨others, found, ?_⟩
    rw [← listedToo, sameNames_iff (firstProper.targets rule) (secondProper.targets rule)]
    exact same rule

end Agreement

/--
A graph that is built edge by edge is the set of its edges in the order in which they came.  An
addition is answered by whether the edge is new, and so many edges are counted as there are such
answers; the edges in the order of the graph build the same graph; and graphs agree if and only if
the same edges were added to them.
-/
theorem putEdges_ordered (added : List (String × String)) :
    (empty.putEdges added).1 = added.mapIdx (fun place edge => decide (edge ∉ added.take place)) ∧
      (∀ rule, (empty.putEdges added).2.targetsOf rule = (targetsAmong rule added).eraseDups) ∧
      (∀ rule, (empty.putEdges added).2.hasRule rule = true ↔ ∃ target, (rule, target) ∈ added) ∧
      (empty.putEdges added).2.targets.keys = (added.map Prod.fst).eraseDups ∧
      (empty.putEdges added).2.size = (added.map Prod.fst).eraseDups.length ∧
      (empty.putEdges added).2.edgeCount = (empty.putEdges added).1.count true ∧
      ofEdges (empty.putEdges added).2.edges = (empty.putEdges added).2 ∧
      ∀ others, (empty.putEdges added).2.agrees (empty.putEdges others).2 = true ↔
        ∀ edge, edge ∈ added ↔ edge ∈ others := by
  have built (edges : List (String × String)) : (empty.putEdges edges).2 = ofEdges edges :=
    putEdges_snd empty edges
  have answers := putEdges_answers [] added
  have counted := edgeCount_putEdges empty added
  refine ⟨answers, fun rule => ?_, fun rule => ?_, ?_, ?_, ?_, ?_, fun others => ?_⟩
  · rw [built, targetsOf_ofEdges]
  · rw [built, hasRule_iff_mem, (Proper.ofEdges added).mem_keys_iff]
    exact exists_congr fun _ => mem_targetsOf_ofEdges
  · rw [built, keys_ofEdges]
  · rw [built, size_eq, keys_ofEdges]
  · rw [counted, show empty.edgeCount = 0 from rfl, Nat.zero_add]
  · rw [built]
    exact (Proper.ofEdges added).rebuilt
  · rw [built, built, (Proper.ofEdges added).agrees_iff (Proper.ofEdges others)]
    simp only [mem_targetsOf_ofEdges, Prod.forall]

/-- The third addition repeats the first one. -/
example : (empty.putEdges [("a", "z"), ("b", "a"), ("a", "z"), ("a", "b")]).1 =
    [true, true, false, true] := by decide

end ReferenceGraph

end Railroad
