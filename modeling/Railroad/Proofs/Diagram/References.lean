import Railroad.Proofs.Diagram.Leaves
import Railroad.Proofs.Printing.Declared
import Railroad.Proofs.Selection

/-!
# References in diagrams

What the reference graph knows of a rule is what its diagrams show.  The names in square boxes,
apart from the one for any token, are the references of the body that was drawn, from left to
right; the graph keeps each of them once, for all declarations of the rule together.
-/

namespace Railroad

open Scan (wordToken isWordCharacter)

theorem IsWord.of_all {word : String} {c : Char} {run : List Char} (spelled : word.toList = c :: run)
    (letter : Text.isAlphabetic c = true) (others : run.all isWordCharacter = true) : IsWord word :=
  ⟨c, run, spelled, letter, List.all_eq_true.mp others⟩

theorem Keyword.isWord (keyword : Keyword) : IsWord keyword.text := by
  cases keyword <;> exact .of_all rfl (by decide) (by decide)

theorem isWord_of_shaped {word : String} (shaped : (wordToken word).Shaped) : IsWord word := by
  unfold wordToken at shaped
  split at shaped
  next keyword found => exact Keyword.text_eq_of_ofText? found ▸ keyword.isWord
  next =>
    split at shaped
    · exact shaped.1
    · exact shaped.1

theorem IsWord.characters {word : String} (isWord : IsWord word) :
    ∀ c ∈ word.toList, isWordCharacter c = true := by
  obtain ⟨first, run, spelled, letter, others⟩ := isWord
  intro c member
  rw [spelled] at member
  rcases List.mem_cons.mp member with rfl | later
  · rw [isWordCharacter, letter, Bool.true_or, Bool.true_or]
  · exact others c later

theorem IsWord.not_mem {word : String} (isWord : IsWord word) {c : Char}
    (other : isWordCharacter c = false) : c ∉ word.toList := fun member =>
  Bool.false_ne_true (other.symm.trans (isWord.characters c member))

namespace Label

theorem guardCodePoints_of_free {text : List Char} (free : '\\' ∉ text) :
    guardCodePoints text = text := by
  fun_induction guardCodePoints text with
  | case1 => rfl
  | case2 => exact absurd (List.mem_cons_self ..) free
  | case3 c rest _ ih => rw [ih fun member => free (List.mem_cons_of_mem _ member)]

theorem guardQuotes_of_free {text : List Char} (free : '\'' ∉ text) : guardQuotes text = text := by
  fun_induction guardQuotes text with
  | case1 => rfl
  | case2 => exact absurd (List.mem_cons_self ..) free
  | case3 c rest _ ih => rw [ih fun member => free (List.mem_cons_of_mem _ member)]

/-- Words need no escaping. -/
theorem escape_of_isWord {word : String} (isWord : IsWord word) : escape word = word := by
  have noSlash : '\\' ∉ word.toList := isWord.not_mem (by decide)
  have noQuote : '\'' ∉ word.toList := isWord.not_mem (by decide)
  rw [escape, escapeChars, guardCodePoints_of_free noSlash, guardQuotes_of_free noQuote,
    String.ofList_toList]

end Label

/-- No rule is mistaken for the wildcard of the parser rules. -/
theorem IsWord.ne_anyTokenLabel {word : String} (isWord : IsWord word) : word ≠ anyTokenLabel := by
  rintro rfl
  exact isWord.not_mem (c := ' ') (by decide) (by decide)

namespace Diagram

/-- The rule that a node refers to. -/
def reference? : Diagram → Option String
  | nonTerminal label => if label = anyTokenLabel then none else some label
  | _ => none

/-- The rules that the nodes of a diagram refer to, in preorder. -/
def references (diagram : Diagram) : List String := diagram.preorder.filterMap reference?

def referencesAll (diagrams : List Diagram) : List String :=
  (preorderAll diagrams).filterMap reference?

@[simp]
theorem referencesAll_nil : referencesAll [] = [] := rfl

@[simp]
theorem referencesAll_cons (diagram : Diagram) (rest : List Diagram) :
    referencesAll (diagram :: rest) = diagram.references ++ referencesAll rest := by
  simp only [referencesAll, preorderAll, List.filterMap_append, references]

@[simp]
theorem references_sequence (items : List Diagram) :
    (sequence items).references = referencesAll items := rfl

@[simp]
theorem references_choice (selected : Nat) (branches : List Diagram) :
    (choice selected branches).references = referencesAll branches := rfl

@[simp]
theorem references_comment (label : String) : (comment label).references = [] := rfl

@[simp]
theorem references_terminal (label : String) : (terminal label).references = [] := rfl

theorem references_nonTerminal {label : String} (different : label ≠ anyTokenLabel) :
    (nonTerminal label).references = [label] := by
  simp only [references, preorder, List.filterMap_cons, reference?, if_neg different,
    List.filterMap_nil]

end Diagram

@[simp]
theorem wildcardDiagram_references (kind : RuleKind) : (wildcardDiagram kind).references = [] := by
  cases kind <;> rfl

@[simp]
theorem Suffix.diagram_references (suffix : Option Suffix) (item : Diagram) :
    (Suffix.diagram suffix item).references = item.references := by
  unfold Suffix.diagram
  split <;> rfl

mutual

theorem Atom.diagram_references (kind : RuleKind) : ∀ (atom : Atom),
    (∀ name ∈ atom.references, IsWord name) → (atom.diagram kind).references = atom.references
  | .literal _, _ => rfl
  | .range _ _, _ => rfl
  | .charSet _, _ => rfl
  | .reference name _, words => by
      have isWord : IsWord name.value := words _ (List.mem_singleton_self _)
      rw [Atom.diagram, Label.escape_of_isWord isWord]
      exact Diagram.references_nonTerminal isWord.ne_anyTokenLabel
  | .excluding operand, words => by
      have inner := Atom.diagram_references kind operand words
      simp only [Atom.diagram, Diagram.references_sequence, Diagram.referencesAll_cons,
        Diagram.references_comment, Diagram.referencesAll_nil, List.append_nil, List.nil_append,
        inner, Atom.references]
  | .excludingAny operands, words => by
      have inner := atomDiagrams_references kind operands words
      simp only [Atom.diagram, Diagram.references_sequence, Diagram.referencesAll_cons,
        Diagram.references_comment, Diagram.references_choice, Diagram.referencesAll_nil,
        List.append_nil, List.nil_append, inner, Atom.references]
  | .wildcard, _ => wildcardDiagram_references kind

theorem atomDiagrams_references (kind : RuleKind) : ∀ (atoms : List Atom),
    (∀ name ∈ atomReferences atoms, IsWord name) →
      Diagram.referencesAll (atomDiagrams kind atoms) = atomReferences atoms
  | [], _ => rfl
  | atom :: rest, words => by
      obtain ⟨here, later⟩ := List.forall_mem_append.mp words
      rw [atomDiagrams, Diagram.referencesAll_cons, Atom.diagram_references kind atom here,
        atomDiagrams_references kind rest later, atomReferences]

end

mutual

theorem Content.diagram_references (kind : RuleKind) : ∀ (content : Content),
    (∀ name ∈ content.references, IsWord name) →
      (content.diagram kind).references = content.references
  | .atom atom, words => Atom.diagram_references kind atom words
  | .group block, words => alternativeDiagrams_references kind block words
  | .action _ _, _ => rfl

theorem Element.diagram_references (kind : RuleKind) : ∀ (element : Element),
    (∀ name ∈ element.references, IsWord name) →
      (element.diagram kind).references = element.references
  | ⟨content, _, suffix⟩, words => by
      rw [Element.diagram, Suffix.diagram_references]
      exact Content.diagram_references kind content words

theorem elementDiagrams_references (kind : RuleKind) : ∀ (elements : List Element),
    (∀ name ∈ elementReferences elements, IsWord name) →
      Diagram.referencesAll (elementDiagrams kind elements) = elementReferences elements
  | [], _ => rfl
  | element :: rest, words => by
      obtain ⟨here, later⟩ := List.forall_mem_append.mp words
      rw [elementDiagrams, Diagram.referencesAll_cons, Element.diagram_references kind element here,
        elementDiagrams_references kind rest later, elementReferences]

theorem Alternative.diagram_references (kind : RuleKind) : ∀ (alternative : Alternative),
    (∀ name ∈ alternative.references, IsWord name) →
      (alternative.diagram kind).references = alternative.references
  | ⟨[], _, _, _⟩, _ => rfl
  | ⟨element :: rest, _, _, _⟩, words => by
      obtain ⟨here, later⟩ := List.forall_mem_append.mp words
      rw [Alternative.diagram, Diagram.references_sequence, Diagram.referencesAll_cons,
        Element.diagram_references kind element here, elementDiagrams_references kind rest later]
      rfl

theorem alternativeDiagrams_references (kind : RuleKind) : ∀ (block : List Alternative),
    (∀ name ∈ blockReferences block, IsWord name) →
      Diagram.referencesAll (alternativeDiagrams kind block) = blockReferences block
  | [], _ => rfl
  | alternative :: rest, words => by
      obtain ⟨here, later⟩ := List.forall_mem_append.mp words
      rw [alternativeDiagrams, Diagram.referencesAll_cons,
        Alternative.diagram_references kind alternative here,
        alternativeDiagrams_references kind rest later, blockReferences]

end

/-- The diagram of a rule body refers to what the body refers to. -/
theorem blockDiagram_references {kind : RuleKind} {block : Block}
    (words : ∀ name ∈ blockReferences block, IsWord name) :
    (blockDiagram kind block).references = blockReferences block :=
  alternativeDiagrams_references kind block words

/-- In a grammar that has been read, rules refer to words. -/
theorem Grammar.references_words {source : String} {found : Grammar}
    (parsed : Grammar.parse source = .ok found) :
    ∀ rule ∈ found.rules, ∀ name ∈ blockReferences rule.body, IsWord name := by
  obtain ⟨lexemes, rest, scanned, read⟩ := Grammar.parse_eq_ok.mp parsed
  intro rule listed name member
  obtain ⟨_, -, -, known⟩ := Grammar.body_tokens scanned read listed
  exact isWord_of_shaped (known _ (mem_joinedBy (blockReferences_token member))).1

/-! ## The graph of a grammar -/

namespace ReferenceGraph

theorem fresh_congr {found other : List String} (same : ∀ name, name ∈ found ↔ name ∈ other)
    (names : List String) : fresh found names = fresh other names := by
  induction names generalizing found other with
  | nil => rfl
  | cons name rest ih =>
      have shifted : ∀ next, next ∈ name :: found ↔ next ∈ name :: other := fun next => by
        rw [List.mem_cons, List.mem_cons, same]
      by_cases seen : name ∈ found
      · rw [fresh, fresh, if_pos seen, if_pos ((same name).mp seen), ih same]
      · rw [fresh, fresh, if_neg seen, if_neg (mt (same name).mpr seen), ih shifted]

theorem fresh_append (found first second : List String) :
    fresh found (first ++ second) =
      fresh found first ++ fresh (found ++ fresh found first) second := by
  induction first generalizing found with
  | nil => rw [fresh, List.nil_append, List.nil_append, List.append_nil]
  | cons name rest ih =>
      by_cases seen : name ∈ found
      · simp only [List.cons_append, fresh, if_pos seen, ih]
      · simp only [List.cons_append, fresh, if_neg seen, ih]
        refine congrArg _ (congrArg _ (fresh_congr (fun next => ?_) second))
        simp only [List.mem_cons, List.mem_append, or_left_comm]

theorem fresh_eq_nil {names : List String} : fresh [] names = [] ↔ names = [] := by
  cases names with
  | nil => exact iff_of_true rfl rfl
  | cons name rest => exact iff_of_false (List.cons_ne_nil _ _) (List.cons_ne_nil _ _)

variable {graph : ReferenceGraph} {source rule target : String}

theorem targetsOf_addEdge : (graph.addEdge source target).targetsOf rule =
    if rule = source then graph.targetsOf source ++ fresh (graph.targetsOf source) [target]
    else graph.targetsOf rule := by
  by_cases known : graph.hasEdge source target = true
  · have listed := hasEdge_iff.mp known
    rw [addEdge, if_pos known, fresh, if_pos listed, fresh, List.append_nil]
    split
    next same => rw [same]
    next => rfl
  · have new := mt hasEdge_iff.mpr known
    rw [addEdge, if_neg known, fresh, if_neg new, fresh, targetsOf, Catalog.get?_put]
    split
    · rfl
    · rfl

theorem targetsOf_addEdges {targets : List String} :
    (graph.addEdges source targets).targetsOf rule =
      if rule = source then graph.targetsOf source ++ fresh (graph.targetsOf source) targets
      else graph.targetsOf rule := by
  unfold addEdges
  induction targets generalizing graph with
  | nil =>
      rw [List.foldl_nil, fresh, List.append_nil]
      split
      next same => rw [same]
      next => rfl
  | cons target rest ih =>
      have parts := fresh_append (graph.targetsOf source) [target] rest
      rw [List.singleton_append] at parts
      rw [List.foldl_cons, ih, targetsOf_addEdge, targetsOf_addEdge, if_pos rfl, parts,
        List.append_assoc]
      by_cases same : rule = source
      · rw [if_pos same, if_pos same]
      · rw [if_neg same, if_neg same, if_neg same]

/-- A rule stands in the graph only with targets. -/
def Filled (graph : ReferenceGraph) : Prop :=
  ∀ rule, graph.hasRule rule = true → graph.targetsOf rule ≠ []

theorem Filled.addEdge (filled : graph.Filled) : (graph.addEdge source target).Filled := by
  intro rule listed
  by_cases known : graph.hasEdge source target = true
  · rw [ReferenceGraph.addEdge, if_pos known] at listed ⊢
    exact filled rule listed
  · rw [targetsOf_addEdge]
    split
    next =>
      rw [fresh, if_neg (mt hasEdge_iff.mpr known)]
      exact List.append_ne_nil_of_right_ne_nil _ (List.cons_ne_nil _ _)
    next other =>
      rw [ReferenceGraph.addEdge, if_neg known, hasRule, Catalog.contains, Catalog.get?_put,
        if_neg other] at listed
      exact filled rule listed

theorem Filled.addEdges (filled : graph.Filled) (targets : List String) :
    (graph.addEdges source targets).Filled := by
  unfold ReferenceGraph.addEdges
  induction targets generalizing graph with
  | nil => exact filled
  | cons target rest ih => exact ih filled.addEdge

theorem Filled.hasRule_iff (filled : graph.Filled) :
    graph.hasRule rule = true ↔ graph.targetsOf rule ≠ [] := by
  refine ⟨filled rule, fun some => ?_⟩
  rw [hasRule, Catalog.contains]
  cases entry : graph.targets.get? rule with
  | none => exact absurd (by rw [targetsOf, entry]; rfl) some
  | some targets => rfl

end ReferenceGraph

def Rule.diagram (rule : Rule) : Diagram := blockDiagram rule.kind rule.body

/-- The declarations of a rule, in the order of the source. -/
def declarationsOf (name : String) (rules : List Rule) : List Rule :=
  rules.filter fun rule => decide (rule.name.value = name)

section Declarations

variable {name : String} {rule : Rule} {rest : List Rule}

theorem declarationsOf_cons_of_eq (same : rule.name.value = name) :
    declarationsOf name (rule :: rest) = rule :: declarationsOf name rest :=
  List.filter_cons_of_pos (decide_eq_true same)

theorem declarationsOf_cons_of_ne (different : rule.name.value ≠ name) :
    declarationsOf name (rule :: rest) = declarationsOf name rest :=
  List.filter_cons_of_neg (mt of_decide_eq_true different)

end Declarations

namespace DrawnGrammar

variable {drawn : DrawnGrammar} {name : String}

open ReferenceGraph

/-- Targets are added by every declaration. -/
theorem targetsOf_addRules (rules : List Rule) :
    (rules.foldl addRule drawn).graph.targetsOf name =
      drawn.graph.targetsOf name ++ fresh (drawn.graph.targetsOf name)
        ((declarationsOf name rules).flatMap fun rule => blockReferences rule.body) := by
  induction rules generalizing drawn with
  | nil => exact (List.append_nil _).symm
  | cons rule rest ih =>
      have added : (drawn.addRule rule).graph.targetsOf name = _ := targetsOf_addEdges
      by_cases same : rule.name.value = name
      · rw [if_pos same.symm, same] at added
        rw [List.foldl_cons, ih, added, declarationsOf_cons_of_eq same, List.flatMap_cons,
          fresh_append, List.append_assoc]
      · rw [if_neg (Ne.symm same)] at added
        rw [List.foldl_cons, ih, added, declarationsOf_cons_of_ne same]

/-- The last declaration is drawn. -/
theorem diagram?_addRules (rules : List Rule) :
    (rules.foldl addRule drawn).diagram? name =
      ((declarationsOf name rules).getLast?.map Rule.diagram).or (drawn.diagram? name) := by
  induction rules generalizing drawn with
  | nil => rfl
  | cons rule rest ih =>
      have added : (drawn.addRule rule).diagram? name =
          if name = rule.name.value then some rule.diagram else drawn.diagram? name :=
        Catalog.get?_put ..
      by_cases same : rule.name.value = name
      · rw [if_pos same.symm] at added
        rw [List.foldl_cons, ih, added, declarationsOf_cons_of_eq same, List.getLast?_cons]
        cases (declarationsOf name rest).getLast? <;> rfl
      · rw [if_neg (Ne.symm same)] at added
        rw [List.foldl_cons, ih, added, declarationsOf_cons_of_ne same]

theorem filled_addRules (filled : drawn.graph.Filled) (rules : List Rule) :
    (rules.foldl addRule drawn).graph.Filled := by
  induction rules generalizing drawn with
  | nil => exact filled
  | cons rule rest ih => exact ih (filled.addEdges (blockReferences rule.body))

end DrawnGrammar

namespace Grammar

open ReferenceGraph

theorem drawn_targetsOf (grammar : Grammar) (name : String) :
    grammar.drawn.graph.targetsOf name =
      fresh [] ((declarationsOf name grammar.rules).flatMap fun rule => blockReferences rule.body) :=
  DrawnGrammar.targetsOf_addRules grammar.rules

theorem drawn_diagram? (grammar : Grammar) (name : String) :
    grammar.drawn.diagram? name = (declarationsOf name grammar.rules).getLast?.map Rule.diagram :=
  (DrawnGrammar.diagram?_addRules grammar.rules).trans Option.or_none

theorem drawn_filled (grammar : Grammar) : grammar.drawn.graph.Filled :=
  DrawnGrammar.filled_addRules (fun _ none => Bool.noConfusion none) grammar.rules

/--
The graph has an edge from a rule to every name that one of its diagrams refers to, and to
nothing else; names stand where they come first.  A rule declared once has one diagram, so there
its edges are the references of the diagram on the page.
-/
theorem references_drawn {source : String} {found : Grammar}
    (parsed : Grammar.parse source = .ok found) (name : String) :
    found.drawn.graph.targetsOf name =
        fresh [] ((declarationsOf name found.rules).flatMap fun rule => rule.diagram.references) ∧
      (found.drawn.graph.hasRule name = true ↔
        ∃ rule ∈ declarationsOf name found.rules, rule.diagram.references ≠ []) ∧
      ∀ rule, declarationsOf name found.rules = [rule] →
        found.drawn.diagram? name = some rule.diagram ∧
          found.drawn.graph.targetsOf name = fresh [] rule.diagram.references ∧
          (found.drawn.graph.hasRule name = true ↔ rule.diagram.references ≠ []) := by
  have shown : ∀ rule ∈ declarationsOf name found.rules,
      rule.diagram.references = blockReferences rule.body := fun rule declared =>
    blockDiagram_references (Grammar.references_words parsed rule (List.mem_filter.mp declared).1)
  have targets : found.drawn.graph.targetsOf name =
      fresh [] ((declarationsOf name found.rules).flatMap fun rule => rule.diagram.references) := by
    rw [drawn_targetsOf]
    exact congrArg _ (List.flatMap_congr fun rule declared => (shown rule declared).symm)
  have listed : found.drawn.graph.hasRule name = true ↔
      ∃ rule ∈ declarationsOf name found.rules, rule.diagram.references ≠ [] := by
    rw [found.drawn_filled.hasRule_iff, targets, ne_eq, fresh_eq_nil, List.flatMap_eq_nil_iff]
    simp only [not_forall, exists_prop, ne_eq]
  refine ⟨targets, listed, fun rule once => ⟨?_, ?_, ?_⟩⟩
  · rw [drawn_diagram?, once]
    rfl
  · rw [targets, once, List.flatMap_singleton]
  · rw [listed, once]
    simp only [List.mem_singleton, exists_eq_left]

theorem references_drawn_wildcard : ∃ found,
    parse "grammar g; a : ~(b | 'x') (c | . c)* b; b : 'y'; b : c;" = .ok found ∧
      found.drawn.graph.targetsOf "a" =
        fresh [] ((declarationsOf "a" found.rules).flatMap fun rule => rule.diagram.references) ∧
      (found.drawn.graph.hasRule "a" = true ↔
        ∃ rule ∈ declarationsOf "a" found.rules, rule.diagram.references ≠ []) ∧
      ∀ rule, declarationsOf "a" found.rules = [rule] →
        found.drawn.diagram? "a" = some rule.diagram ∧
          found.drawn.graph.targetsOf "a" = fresh [] rule.diagram.references ∧
          (found.drawn.graph.hasRule "a" = true ↔ rule.diagram.references ≠ []) := by
  have ok : (parse "grammar g; a : ~(b | 'x') (c | . c)* b; b : 'y'; b : c;").isOk = true := by
    decide +kernel
  cases parsed : parse "grammar g; a : ~(b | 'x') (c | . c)* b; b : 'y'; b : c;" with
  | error rejection => rw [parsed] at ok; cases ok
  | ok found => exact ⟨found, rfl, references_drawn parsed "a"⟩

/-- The diagram of a rule declared again does not show the references of earlier declarations. -/
theorem references_redeclared : ∃ found diagram,
    parse "grammar g; a : b; a : c;" = .ok found ∧ found.drawn.diagram? "a" = some diagram ∧
      diagram.references = ["c"] ∧ found.drawn.graph.targetsOf "a" = ["b", "c"] := by
  have known : (match parse "grammar g; a : b; a : c;" with
    | .ok found => decide ((found.drawn.diagram? "a").map Diagram.references = some ["c"] ∧
        found.drawn.graph.targetsOf "a" = ["b", "c"])
    | .error _ => false) = true := by decide +kernel
  cases parsed : parse "grammar g; a : b; a : c;" with
  | error rejection => rw [parsed] at known; cases known
  | ok found =>
      rw [parsed] at known
      obtain ⟨shown, targets⟩ := of_decide_eq_true known
      obtain ⟨diagram, drawn, references⟩ := Option.map_eq_some_iff.mp shown
      exact ⟨found, diagram, rfl, drawn, references, targets⟩

end Grammar

end Railroad