import Railroad.Catalog

/-!
# The reference graph

An edge from a rule to a name says that the rule refers to the name.  Edges are kept once, in
the order in which they were first added; a target need not be a declared rule.

Without a root every declared rule is selected.  With a root the selection is found breadth
first: every name reachable from the root, each once, in the order of discovery.
-/

namespace Railroad

/-- For each rule with outgoing edges its targets, both in the order of first addition. -/
structure ReferenceGraph where
  targets : Catalog String (List String)
  deriving Repr

namespace ReferenceGraph

def empty : ReferenceGraph := ⟨.empty⟩

/-- The names that a rule refers to. -/
def targetsOf (graph : ReferenceGraph) (rule : String) : List String :=
  (graph.targets.get? rule).getD []

def hasEdge (graph : ReferenceGraph) (source target : String) : Bool :=
  (graph.targetsOf source).contains target

/-- Adds an edge unless it is there. -/
def addEdge (graph : ReferenceGraph) (source target : String) : ReferenceGraph :=
  if graph.hasEdge source target then graph
  else ⟨graph.targets.put source (graph.targetsOf source ++ [target])⟩

/-- Adds the edges from one rule to several names, in order. -/
def addEdges (graph : ReferenceGraph) (source : String) (targets : List String) : ReferenceGraph :=
  targets.foldl (fun graph target => graph.addEdge source target) graph

/-- Whether a rule has outgoing edges. -/
def hasRule (graph : ReferenceGraph) (rule : String) : Bool := graph.targets.contains rule

/-- Number of rules with outgoing edges. -/
def size (graph : ReferenceGraph) : Nat := graph.targets.size

def edgeCount (graph : ReferenceGraph) : Nat := (graph.targets.values.map List.length).foldr (· + ·) 0

/-- All edges in order. -/
def edges (graph : ReferenceGraph) : List (String × String) :=
  graph.targets.entries.flatMap fun (source, targets) => targets.map fun target => (source, target)

def ofEdges (edges : List (String × String)) : ReferenceGraph :=
  edges.foldl (fun graph edge => graph.addEdge edge.1 edge.2) empty

/-- Adds an edge; the answer says whether it is new. -/
def putEdge (graph : ReferenceGraph) (source target : String) : Bool × ReferenceGraph :=
  (!graph.hasEdge source target, graph.addEdge source target)

/-- Adds edges one after another, with an answer for each of them. -/
def putEdges (graph : ReferenceGraph) : List (String × String) → List Bool × ReferenceGraph
  | [] => ([], graph)
  | (source, target) :: rest =>
      let (isNew, next) := graph.putEdge source target
      let (answers, final) := next.putEdges rest
      (isNew :: answers, final)

/-- Whether two lists without repetitions hold the same names. -/
def sameNames (first second : List String) : Bool :=
  first.length == second.length && first.all second.contains

/-- Whether two graphs have the same rules with the same targets, in whatever order. -/
def agrees (first second : ReferenceGraph) : Bool :=
  first.size == second.size && first.targets.entries.all fun (source, targets) =>
    (second.targets.get? source).any (sameNames targets)

/-- The names that are not found yet, each once. -/
def fresh (found : List String) : List String → List String
  | [] => []
  | name :: rest =>
      if name ∈ found then fresh found rest else name :: fresh (name :: found) rest

/-- Every name that some edge leads to. -/
def allTargets (graph : ReferenceGraph) : List String := graph.targets.values.flatten

/-- How many of the known names are not found yet, counted with repetitions. -/
def unseen (known found : List String) : Nat :=
  known.countP fun name => decide (name ∉ found)

theorem unseen_le (known : List String) {found larger : List String}
    (grows : ∀ name ∈ found, name ∈ larger) : unseen known larger ≤ unseen known found := by
  apply List.countP_mono_left
  intro name _ notLarger
  simp only [decide_eq_true_eq] at notLarger ⊢
  exact fun inFound => notLarger (grows name inFound)

theorem unseen_cons (known found : List String) {name : String} (isKnown : name ∈ known)
    (notFound : name ∉ found) : unseen known (name :: found) + 1 ≤ unseen known found := by
  induction known with
  | nil => exact absurd isKnown List.not_mem_nil
  | cons first rest ih =>
      have smaller : unseen rest (name :: found) ≤ unseen rest found :=
        unseen_le rest fun _ member => List.mem_cons_of_mem name member
      by_cases here : first = name
      · subst here
        simp only [unseen] at smaller ⊢
        rw [List.countP_cons_of_neg (by simp), List.countP_cons_of_pos (by simpa using notFound)]
        exact Nat.succ_le_succ smaller
      · have inRest : name ∈ rest := (List.mem_cons.mp isKnown).resolve_left (Ne.symm here)
        have step := ih inRest
        simp only [unseen] at step ⊢
        by_cases seen : first ∈ found
        · rw [List.countP_cons_of_neg (by simp [seen]), List.countP_cons_of_neg (by simp [seen])]
          exact step
        · rw [List.countP_cons_of_pos (by simp [seen, here]),
            List.countP_cons_of_pos (by simp [seen])]
          exact Nat.succ_le_succ step

theorem unseen_fresh (known found names : List String)
    (areKnown : ∀ name ∈ names, name ∈ known) :
    unseen known (found ++ fresh found names) + (fresh found names).length ≤
      unseen known found := by
  induction names generalizing found with
  | nil => simp [fresh]
  | cons name rest ih =>
      have restKnown : ∀ other ∈ rest, other ∈ known :=
        fun other member => areKnown other (List.mem_cons_of_mem name member)
      by_cases seen : name ∈ found
      · simpa only [fresh, seen, if_true] using ih found restKnown
      · have step := ih (name :: found) restKnown
        have one := unseen_cons known found (areKnown name List.mem_cons_self) seen
        have same : unseen known (found ++ name :: fresh (name :: found) rest) ≤
            unseen known (name :: found ++ fresh (name :: found) rest) := by
          apply unseen_le
          intro other member
          simp only [List.cons_append, List.mem_cons, List.mem_append] at member ⊢
          rcases member with rfl | inFound | inFresh
          · exact Or.inr (Or.inl rfl)
          · exact Or.inl inFound
          · exact Or.inr (Or.inr inFresh)
        simp only [fresh, seen, if_false, List.length_cons]
        omega

theorem mem_allTargets (graph : ReferenceGraph) (rule : String) :
    ∀ name ∈ graph.targetsOf rule, name ∈ graph.allTargets := by
  intro name member
  unfold targetsOf at member
  cases entry : graph.targets.get? rule with
  | none => simp [entry] at member
  | some targets =>
      obtain ⟨before, after, split, -⟩ := List.lookup_eq_some_iff.mp entry
      have listed : targets ∈ graph.targets.values := by simp [Catalog.values, split]
      rw [entry, Option.getD_some] at member
      exact List.mem_flatten.mpr ⟨targets, listed, member⟩

/-- Goes on from the pending names; each step adds the new targets of the first of them. -/
def explore (graph : ReferenceGraph) (found : List String) : List String → List String
  | [] => found
  | rule :: pending =>
      let new := fresh found (graph.targetsOf rule)
      explore graph (found ++ new) (pending ++ new)
termination_by pending => unseen graph.allTargets found + pending.length
decreasing_by
  have step := unseen_fresh graph.allTargets found (graph.targetsOf rule)
    (mem_allTargets graph rule)
  simp only [List.length_append, List.length_cons]
  omega

/-- The names to show: the declared ones, or those reachable from the root in breadth-first order. -/
def select (graph : ReferenceGraph) (declared : List String) : Option String → List String
  | none => declared
  | some root => explore graph [root] [root]

end ReferenceGraph

end Railroad
