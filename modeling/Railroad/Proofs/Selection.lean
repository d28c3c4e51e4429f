import Mathlib.Data.List.Nodup
import Railroad.Diagram.References

/-!
# Breadth-first selection

A selection from a root lists every name that a walk along references leads to, each once and
nearest first.  A name is discovered by the first listed rule that refers to it; names at one
distance stand in the order of their discoverers, and behind one discoverer in the order of its
references.  The exploration is described by what it has found so far, cut into the rules that
were taken up already and those that are pending.
-/

namespace Railroad.ReferenceGraph

/-- A walk of so many references from the root to a name. -/
inductive Walk (graph : ReferenceGraph) (root : String) : Nat → String → Prop where
  | here : Walk graph root 0 root
  | step {length : Nat} {rule target : String} (walk : Walk graph root length rule)
      (edge : target ∈ graph.targetsOf rule) : Walk graph root (length + 1) target

def Reaches (graph : ReferenceGraph) (root name : String) : Prop :=
  ∃ length, graph.Walk root length name

/-- The length of the shortest walk from the root to a name. -/
def Distance (graph : ReferenceGraph) (root name : String) (length : Nat) : Prop :=
  graph.Walk root length name ∧ ∀ other, graph.Walk root other name → length ≤ other

/-- The place in the list of the first rule that refers to a name. -/
def discoverer (graph : ReferenceGraph) (order : List String) (name : String) : Nat :=
  order.findIdx fun rule => graph.hasEdge rule name

/-- The place of a name among the references of the first listed rule that refers to it. -/
def discoveryPlace (graph : ReferenceGraph) (order : List String) (name : String) : Nat :=
  match order.find? fun rule => graph.hasEdge rule name with
  | some rule => (graph.targetsOf rule).idxOf name
  | none => 0

/-- Whether one name is discovered before another. -/
def DiscoveredBefore (graph : ReferenceGraph) (order : List String) (first second : String) : Prop :=
  graph.discoverer order first < graph.discoverer order second ∨
    graph.discoverer order first = graph.discoverer order second ∧
      graph.discoveryPlace order first < graph.discoveryPlace order second

/-- Nearer names come first, names at one distance in the order of their discovery. -/
def Precedes (graph : ReferenceGraph) (root : String) (order : List String)
    (first second : String) : Prop :=
  ∃ near far, graph.Distance root first near ∧ graph.Distance root second far ∧
    (near < far ∨ near = far ∧ graph.DiscoveredBefore order first second)

variable {graph : ReferenceGraph} {root : String}

@[simp]
theorem hasEdge_iff {rule target : String} :
    graph.hasEdge rule target = true ↔ target ∈ graph.targetsOf rule := by
  simp [hasEdge]

theorem mem_fresh {found names : List String} {name : String} :
    name ∈ fresh found names ↔ name ∈ names ∧ name ∉ found := by
  induction names generalizing found with
  | nil => simp [fresh]
  | cons first rest ih =>
      by_cases seen : first ∈ found
      · rw [fresh, if_pos seen, ih, List.mem_cons]
        constructor
        · rintro ⟨later, new⟩
          exact ⟨Or.inr later, new⟩
        · rintro ⟨rfl | later, new⟩
          · exact absurd seen new
          · exact ⟨later, new⟩
      · rw [fresh, if_neg seen, List.mem_cons, ih, List.mem_cons, List.mem_cons, not_or]
        constructor
        · rintro (rfl | ⟨later, different, new⟩)
          · exact ⟨Or.inl rfl, seen⟩
          · exact ⟨Or.inr later, new⟩
        · rintro ⟨rfl | later, new⟩
          · exact Or.inl rfl
          · by_cases same : name = first
            · exact Or.inl same
            · exact Or.inr ⟨later, same, new⟩

theorem nodup_fresh (found names : List String) : (fresh found names).Nodup := by
  induction names generalizing found with
  | nil => exact List.nodup_nil
  | cons first rest ih =>
      by_cases seen : first ∈ found
      · rw [fresh, if_pos seen]
        exact ih found
      · rw [fresh, if_neg seen, List.nodup_cons]
        exact ⟨fun again => (mem_fresh.mp again).2 List.mem_cons_self, ih _⟩

/-- New names keep the order in which they stand among all names. -/
theorem fresh_sorted (found names : List String) :
    (fresh found names).Pairwise fun first second => names.idxOf first < names.idxOf second := by
  induction names generalizing found with
  | nil => exact List.Pairwise.nil
  | cons name rest ih =>
      have shifted (known : List String) (isKnown : name ∈ known) :
          (fresh known rest).Pairwise fun first second =>
            (name :: rest).idxOf first < (name :: rest).idxOf second := by
        refine (ih known).imp_of_mem fun {first second} firstNew secondNew before => ?_
        have firstOther : name ≠ first := fun same => (mem_fresh.mp firstNew).2 (same ▸ isKnown)
        have secondOther : name ≠ second := fun same => (mem_fresh.mp secondNew).2 (same ▸ isKnown)
        rw [List.idxOf_cons_ne _ firstOther, List.idxOf_cons_ne _ secondOther]
        exact Nat.succ_lt_succ before
      by_cases seen : name ∈ found
      · rw [fresh, if_pos seen]
        exact shifted found seen
      · rw [fresh, if_neg seen]
        refine List.Pairwise.cons (fun other new => ?_) (shifted _ List.mem_cons_self)
        have different : name ≠ other := fun same =>
          (mem_fresh.mp new).2 (same ▸ List.mem_cons_self)
        rw [List.idxOf_cons_self, List.idxOf_cons_ne _ different]
        exact Nat.succ_pos _

theorem discoverer_lt {order : List String} {name : String}
    (discovered : ∃ rule ∈ order, name ∈ graph.targetsOf rule) :
    graph.discoverer order name < order.length := by
  obtain ⟨rule, listed, edge⟩ := discovered
  exact List.findIdx_lt_length_of_exists ⟨rule, listed, hasEdge_iff.mpr edge⟩

theorem discoverer_append {order : List String} {name : String}
    (discovered : ∃ rule ∈ order, name ∈ graph.targetsOf rule) (more : List String) :
    graph.discoverer (order ++ more) name = graph.discoverer order name := by
  have inside := discoverer_lt discovered
  unfold discoverer at inside ⊢
  rw [List.findIdx_append, if_pos inside]

theorem discoveryPlace_append {order : List String} {name : String}
    (discovered : ∃ rule ∈ order, name ∈ graph.targetsOf rule) (more : List String) :
    graph.discoveryPlace (order ++ more) name = graph.discoveryPlace order name := by
  obtain ⟨rule, listed, edge⟩ := discovered
  unfold discoveryPlace
  rw [List.find?_append]
  cases first : order.find? fun rule => graph.hasEdge rule name with
  | none => exact absurd (hasEdge_iff.mpr edge) (by simpa using List.find?_eq_none.mp first rule listed)
  | some found => rfl

theorem discoverer_le_of_edge {order : List String} {place : Nat} {name : String}
    (inside : place < order.length) (edge : name ∈ graph.targetsOf order[place]) :
    graph.discoverer order name ≤ place := by
  refine Nat.le_of_not_lt fun later => ?_
  have none := List.not_of_lt_findIdx later
  rw [hasEdge_iff.mpr edge] at none
  cases none

/-- A name that no listed rule refers to is discovered by the rule that comes next. -/
theorem discoverer_next {order : List String} {rule name : String}
    (undiscovered : ∀ earlier ∈ order, name ∉ graph.targetsOf earlier)
    (edge : name ∈ graph.targetsOf rule) :
    graph.discoverer (order ++ [rule]) name = order.length := by
  have none : order.findIdx (fun rule => graph.hasEdge rule name) = order.length :=
    List.findIdx_eq_length.mpr fun earlier listed =>
      Bool.eq_false_iff.mpr (mt hasEdge_iff.mp (undiscovered earlier listed))
  unfold discoverer
  rw [List.findIdx_append, none, if_neg (Nat.lt_irrefl _), List.findIdx_cons,
    hasEdge_iff.mpr edge, cond_true, Nat.zero_add]

theorem discoveryPlace_next {order : List String} {rule name : String}
    (undiscovered : ∀ earlier ∈ order, name ∉ graph.targetsOf earlier)
    (edge : name ∈ graph.targetsOf rule) :
    graph.discoveryPlace (order ++ [rule]) name = (graph.targetsOf rule).idxOf name := by
  have none : order.find? (fun rule => graph.hasEdge rule name) = none :=
    List.find?_eq_none.mpr fun earlier listed => mt hasEdge_iff.mp (undiscovered earlier listed)
  have next : [rule].find? (fun rule => graph.hasEdge rule name) = some rule := by
    rw [List.find?_cons, hasEdge_iff.mpr edge]
  unfold discoveryPlace
  rw [List.find?_append, none, next]
  rfl

/-! ## What the exploration keeps -/

/--
The exploration after it has taken up the rules `done`, with the names `pending` still to come.
Every name but the root was discovered by a rule that stands before it and has been taken up.
-/
structure Frontier (graph : ReferenceGraph) (root : String) (done pending : List String) : Prop where
  nodup : (done ++ pending).Nodup
  first : (done ++ pending).head? = some root
  closed : ∀ rule ∈ done, ∀ target ∈ graph.targetsOf rule, target ∈ done ++ pending
  discovered : ∀ name ∈ (done ++ pending).tail, ∃ rule ∈ done, name ∈ graph.targetsOf rule
  earlier : ∀ place name, (done ++ pending)[place + 1]? = some name →
    graph.discoverer done name ≤ place
  sorted : (done ++ pending).tail.Pairwise (graph.DiscoveredBefore done)

namespace Frontier

theorem initial (graph : ReferenceGraph) (root : String) : Frontier graph root [] [root] where
  nodup := List.nodup_singleton root
  first := rfl
  closed _ none := absurd none List.not_mem_nil
  discovered _ none := absurd none List.not_mem_nil
  earlier _ _ none := by simp at none
  sorted := List.Pairwise.nil

variable {done pending : List String} {rule : String}

theorem found_ne_nil (frontier : Frontier graph root done pending) : done ++ pending ≠ [] := by
  intro none
  simpa [none] using frontier.first

/-- The names that taking up the next rule adds. -/
theorem new_undiscovered (frontier : Frontier graph root done (rule :: pending)) {name : String}
    (new : name ∈ fresh (done ++ rule :: pending) (graph.targetsOf rule)) :
    name ∈ graph.targetsOf rule ∧ ∀ earlier ∈ done, name ∉ graph.targetsOf earlier :=
  ⟨(mem_fresh.mp new).1, fun earlier listed edge =>
    (mem_fresh.mp new).2 (frontier.closed earlier listed name edge)⟩

theorem discoveredBefore_kept (frontier : Frontier graph root done pending) (more : List String)
    {first second : String} (firstFound : first ∈ (done ++ pending).tail)
    (secondFound : second ∈ (done ++ pending).tail)
    (before : graph.DiscoveredBefore done first second) :
    graph.DiscoveredBefore (done ++ more) first second := by
  have firstDiscovered := frontier.discovered first firstFound
  have secondDiscovered := frontier.discovered second secondFound
  unfold DiscoveredBefore at before ⊢
  rw [discoverer_append firstDiscovered, discoverer_append secondDiscovered,
    discoveryPlace_append firstDiscovered, discoveryPlace_append secondDiscovered]
  exact before

/-- Taking up the next rule keeps everything that is known about the exploration. -/
theorem step (frontier : Frontier graph root done (rule :: pending)) :
    Frontier graph root (done ++ [rule])
      (pending ++ fresh (done ++ rule :: pending) (graph.targetsOf rule)) := by
  let new := fresh (done ++ rule :: pending) (graph.targetsOf rule)
  have found_eq : done ++ [rule] ++ (pending ++ new) = (done ++ rule :: pending) ++ new := by
    simp only [List.append_assoc, List.cons_append, List.nil_append]
  have tail_eq : ((done ++ rule :: pending) ++ new).tail = (done ++ rule :: pending).tail ++ new :=
    List.tail_append_of_ne_nil frontier.found_ne_nil
  have newSorted : new.Pairwise (graph.DiscoveredBefore (done ++ [rule])) := by
    refine (fresh_sorted _ _).imp_of_mem fun {first second} firstNew secondNew before => ?_
    obtain ⟨firstEdge, firstUndiscovered⟩ := frontier.new_undiscovered firstNew
    obtain ⟨secondEdge, secondUndiscovered⟩ := frontier.new_undiscovered secondNew
    refine Or.inr ⟨?_, ?_⟩
    · rw [discoverer_next firstUndiscovered firstEdge, discoverer_next secondUndiscovered secondEdge]
    · rw [discoveryPlace_next firstUndiscovered firstEdge,
        discoveryPlace_next secondUndiscovered secondEdge]
      exact before
  refine ⟨?_, ?_, ?_, ?_, ?_, ?_⟩
  · rw [found_eq]
    exact List.nodup_append'.mpr ⟨frontier.nodup, nodup_fresh _ _,
      fun _ old again => (mem_fresh.mp again).2 old⟩
  · rw [found_eq, List.head?_append, frontier.first, Option.some_or]
  · intro earlier listed target edge
    rw [found_eq]
    by_cases old : target ∈ done ++ rule :: pending
    · exact List.mem_append_left _ old
    rcases List.mem_append.mp listed with before | here
    · exact absurd (frontier.closed earlier before target edge) old
    · rw [List.mem_singleton.mp here] at edge
      exact List.mem_append_right _ (mem_fresh.mpr ⟨edge, old⟩)
  · intro name listed
    rw [found_eq, tail_eq] at listed
    rcases List.mem_append.mp listed with old | isNew
    · obtain ⟨earlier, before, edge⟩ := frontier.discovered name old
      exact ⟨earlier, List.mem_append_left _ before, edge⟩
    · exact ⟨rule, List.mem_append_right _ List.mem_cons_self, (mem_fresh.mp isNew).1⟩
  · intro place name entry
    rw [found_eq] at entry
    by_cases old : place + 1 < (done ++ rule :: pending).length
    · rw [List.getElem?_append_left old] at entry
      have inTail : name ∈ (done ++ rule :: pending).tail := by
        refine List.mem_of_getElem? (i := place) ?_
        rw [List.getElem?_tail]
        exact entry
      rw [discoverer_append (frontier.discovered name inTail)]
      exact frontier.earlier place name entry
    · rw [List.getElem?_append_right (Nat.le_of_not_lt old)] at entry
      obtain ⟨edge, undiscovered⟩ := frontier.new_undiscovered (List.mem_of_getElem? entry)
      rw [discoverer_next undiscovered edge]
      simp only [List.length_append, List.length_cons] at old
      omega
  · rw [found_eq, tail_eq]
    refine List.pairwise_append.mpr ⟨?_, newSorted, ?_⟩
    · exact frontier.sorted.imp_of_mem fun firstFound secondFound before =>
        frontier.discoveredBefore_kept [rule] firstFound secondFound before
    · intro first firstFound second secondNew
      obtain ⟨edge, undiscovered⟩ := frontier.new_undiscovered secondNew
      have known := frontier.discovered first firstFound
      refine Or.inl ?_
      rw [discoverer_append known, discoverer_next undiscovered edge]
      exact discoverer_lt known

end Frontier

theorem explore_frontier (graph : ReferenceGraph) (root : String) (done pending : List String)
    (frontier : Frontier graph root done pending) :
    Frontier graph root (explore graph (done ++ pending) pending) [] := by
  generalize found_eq : done ++ pending = found
  fun_induction explore graph found pending generalizing done with
  | case1 found =>
      rw [← found_eq, List.append_nil]
      exact frontier
  | case2 found rule pending new ih =>
      subst found_eq
      refine ih (done ++ [rule]) frontier.step ?_
      simp only [new, List.append_assoc, List.cons_append, List.nil_append]

/-- How many discoverers stand between a place of the list and the root. -/
inductive Depth (graph : ReferenceGraph) (order : List String) : Nat → Nat → Prop where
  | root : Depth graph order 0 0
  | under {place depth : Nat} {name : String} (entry : order[place + 1]? = some name)
      (above : Depth graph order (graph.discoverer order name) depth) :
      Depth graph order (place + 1) (depth + 1)

section Finished

variable {order : List String} (finished : Frontier graph root order [])

include finished

theorem Frontier.root_entry : order[0]? = some root := by
  have first := finished.first
  rwa [List.append_nil, List.head?_eq_getElem?] at first

theorem Frontier.discoverer_le {place : Nat} {name : String}
    (entry : order[place + 1]? = some name) : graph.discoverer order name ≤ place :=
  finished.earlier place name (by rwa [List.append_nil])

theorem Frontier.discoverer_entry {place : Nat} {name : String}
    (entry : order[place + 1]? = some name) :
    ∃ rule, order[graph.discoverer order name]? = some rule ∧ name ∈ graph.targetsOf rule := by
  have found := finished.discoverer_le entry
  have inside : place + 1 < order.length := (List.getElem?_eq_some_iff.mp entry).1
  have bound : graph.discoverer order name < order.length :=
    Nat.lt_of_le_of_lt found (Nat.lt_of_succ_lt inside)
  refine ⟨_, List.getElem?_eq_getElem bound, hasEdge_iff.mp ?_⟩
  exact List.findIdx_getElem (p := fun rule => graph.hasEdge rule name)

theorem Frontier.depth_exists (place : Nat) (inside : place < order.length) :
    ∃ depth, Depth graph order place depth := by
  induction place using Nat.strongRecOn with
  | ind place ih =>
      cases place with
      | zero => exact ⟨0, .root⟩
      | succ place =>
          have entry : order[place + 1]? = some order[place + 1] := List.getElem?_eq_getElem inside
          have above := Nat.lt_succ_of_le (finished.discoverer_le entry)
          obtain ⟨depth, deep⟩ := ih _ above (Nat.lt_trans above inside)
          exact ⟨depth + 1, .under entry deep⟩

/-- Discoverers stand in the list in the order of what they discover. -/
theorem Frontier.discoverer_mono {place other : Nat} {name next : String} (before : place ≤ other)
    (entry : order[place + 1]? = some name) (nextEntry : order[other + 1]? = some next) :
    graph.discoverer order name ≤ graph.discoverer order next := by
  rcases Nat.eq_or_lt_of_le before with rfl | less
  · exact Nat.le_of_eq (congrArg _ (Option.some.inj (entry.symm.trans nextEntry)))
  · have sorted := finished.sorted
    rw [List.append_nil, List.pairwise_iff_getElem] at sorted
    rw [← List.getElem?_tail, List.getElem?_eq_some_iff] at entry nextEntry
    obtain ⟨inside, rfl⟩ := entry
    obtain ⟨nextInside, rfl⟩ := nextEntry
    rcases sorted place other inside nextInside less with lower | ⟨same, _⟩
    · exact Nat.le_of_lt lower
    · exact Nat.le_of_eq same

theorem Frontier.depth_mono {place other depth deeper : Nat} (before : place ≤ other)
    (deep : Depth graph order place depth) (otherDeep : Depth graph order other deeper) :
    depth ≤ deeper := by
  induction otherDeep generalizing place depth with
  | root =>
      cases deep with
      | root => exact Nat.le_refl 0
      | under => exact absurd before (Nat.not_succ_le_zero _)
  | under nextEntry _ ih =>
      cases deep with
      | root => exact Nat.zero_le _
      | under entry above =>
          have discoverers := finished.discoverer_mono (Nat.le_of_succ_le_succ before) entry nextEntry
          exact Nat.succ_le_succ (ih discoverers above)

/-- Following the discoverers back to the root gives a walk. -/
theorem Frontier.walk_of_depth {place depth : Nat} {name : String}
    (deep : Depth graph order place depth) (entry : order[place]? = some name) :
    graph.Walk root depth name := by
  induction deep generalizing name with
  | root =>
      rw [Option.some.inj (entry.symm.trans finished.root_entry)]
      exact .here
  | under known _ ih =>
      obtain ⟨rule, ruleEntry, edge⟩ := finished.discoverer_entry known
      rw [Option.some.inj (entry.symm.trans known)]
      exact .step (ih ruleEntry) edge

/-- Every walk leads to a listed name, and none is shorter than the name is deep. -/
theorem Frontier.depth_le_of_walk {length : Nat} {name : String}
    (walk : graph.Walk root length name) :
    ∃ place depth, order[place]? = some name ∧ Depth graph order place depth ∧ depth ≤ length := by
  induction walk with
  | here => exact ⟨0, 0, finished.root_entry, .root, Nat.le_refl 0⟩
  | @step length rule target walk edge ih =>
      obtain ⟨rulePlace, ruleDepth, ruleEntry, ruleDeep, shorter⟩ := ih
      have listed : target ∈ order := by
        simpa using finished.closed rule (List.mem_of_getElem? ruleEntry) target edge
      obtain ⟨place, inside, rfl⟩ := List.getElem_of_mem listed
      obtain ⟨depth, deep⟩ := finished.depth_exists place inside
      refine ⟨place, depth, List.getElem?_eq_getElem inside, deep, ?_⟩
      cases deep with
      | root => exact Nat.zero_le _
      | under entry above =>
          obtain ⟨ruleInside, rfl⟩ := List.getElem?_eq_some_iff.mp ruleEntry
          have discovered := discoverer_le_of_edge ruleInside edge
          have same := Option.some.inj ((List.getElem?_eq_getElem inside).symm.trans entry)
          rw [same] at discovered
          exact Nat.succ_le_succ (Nat.le_trans (finished.depth_mono discovered above ruleDeep) shorter)

theorem Frontier.distance_of_depth {place depth : Nat} {name : String}
    (deep : Depth graph order place depth) (entry : order[place]? = some name) :
    graph.Distance root name depth := by
  refine ⟨finished.walk_of_depth deep entry, fun other walk => ?_⟩
  obtain ⟨otherPlace, otherDepth, otherEntry, otherDeep, shorter⟩ := finished.depth_le_of_walk walk
  have nodup := finished.nodup
  rw [List.append_nil] at nodup
  obtain ⟨inside, _⟩ := List.getElem?_eq_some_iff.mp entry
  have same : place = otherPlace :=
    (List.getElem?_inj inside nodup).mp (entry.trans otherEntry.symm)
  subst same
  exact Nat.le_trans (finished.depth_mono (Nat.le_refl _) deep otherDeep) shorter

theorem Frontier.precedes : order.Pairwise (graph.Precedes root order) := by
  rw [List.pairwise_iff_getElem]
  intro place other inside otherInside before
  have entry := List.getElem?_eq_getElem inside
  have otherEntry := List.getElem?_eq_getElem otherInside
  obtain ⟨near, deep⟩ := finished.depth_exists place inside
  obtain ⟨far, otherDeep⟩ := finished.depth_exists other otherInside
  refine ⟨near, far, finished.distance_of_depth deep entry,
    finished.distance_of_depth otherDeep otherEntry, ?_⟩
  rcases Nat.eq_or_lt_of_le (finished.depth_mono (Nat.le_of_lt before) deep otherDeep) with
    same | nearer
  · refine Or.inr ⟨same, ?_⟩
    cases deep with
    | root =>
        cases otherDeep with
        | root => exact absurd before (Nat.lt_irrefl 0)
        | under => cases same
    | @under place _ _ =>
        cases other with
        | zero => exact absurd before (Nat.not_lt_zero _)
        | succ other =>
            have sorted := finished.sorted
            rw [List.append_nil, List.pairwise_iff_getElem] at sorted
            have tailInside : place < order.tail.length := by rw [List.length_tail]; omega
            have tailOther : other < order.tail.length := by rw [List.length_tail]; omega
            have ordered := sorted place other tailInside tailOther (Nat.lt_of_succ_lt_succ before)
            simpa only [List.getElem_tail] using ordered
  · exact Or.inl nearer

end Finished

/-- A root selects exactly the names that walks from it lead to. -/
theorem mem_select_root (graph : ReferenceGraph) (declared : List String) (root name : String) :
    name ∈ graph.select declared (some root) ↔ graph.Reaches root name := by
  have finished : Frontier graph root (graph.select declared (some root)) [] :=
    explore_frontier graph root [] [root] (Frontier.initial graph root)
  constructor
  · intro listed
    obtain ⟨place, inside, rfl⟩ := List.getElem_of_mem listed
    obtain ⟨depth, deep⟩ := finished.depth_exists place inside
    exact ⟨depth, finished.walk_of_depth deep (List.getElem?_eq_getElem inside)⟩
  · rintro ⟨length, walk⟩
    obtain ⟨place, _, entry, _⟩ := finished.depth_le_of_walk walk
    exact List.mem_of_getElem? entry

/--
A selection from a root has no duplicates, begins with the root, holds exactly the names that
walks from the root lead to, and lists them breadth first.
-/
theorem select_root_breadthFirst (graph : ReferenceGraph) (declared : List String) (root : String) :
    (graph.select declared (some root)).Nodup ∧
      (graph.select declared (some root)).head? = some root ∧
      (∀ name, name ∈ graph.select declared (some root) ↔ graph.Reaches root name) ∧
      (graph.select declared (some root)).Pairwise
        (graph.Precedes root (graph.select declared (some root))) := by
  have finished : Frontier graph root (graph.select declared (some root)) [] :=
    explore_frontier graph root [] [root] (Frontier.initial graph root)
  have nodup := finished.nodup
  have first := finished.first
  rw [List.append_nil] at nodup first
  exact ⟨nodup, first, graph.mem_select_root declared root, finished.precedes⟩

end Railroad.ReferenceGraph
