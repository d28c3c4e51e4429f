import Railroad.Proofs.Diagram.References
import Railroad.Proofs.Grammar.Formed

/-!
# Labels in diagrams

What can be read in the diagram of a rule: names that the rule refers to, remarks, and texts that
no rule is named like.  Quotes and brackets tell literals and character sets from names, and the
labels of the wildcard have a space in them; only the remarks look like names.
-/

namespace Railroad

open Scan (wordToken)

namespace Label

theorem unescapeChars_of_free {text : List Char} (free : '\\' ∉ text) :
    unescapeChars text = text := by
  fun_induction unescapeChars text with
  | case1 => rfl
  | case2 => rfl
  | case3 next rest _ _ => exact absurd (List.mem_cons_self ..) free
  | case4 next rest _ _ => exact absurd (List.mem_cons_self ..) free
  | case5 c next rest _ ih => rw [ih fun member => free (List.mem_cons_of_mem _ member)]

theorem unescape_of_isWord {word : String} (isWord : IsWord word) : unescape word = word := by
  rw [unescape, unescapeChars_of_free (isWord.not_mem (by decide)), String.ofList_toList]

theorem unescapeChars_quote (rest : List Char) :
    unescapeChars ('\\' :: '\'' :: rest) = '\'' :: unescapeChars rest := by
  simp [unescapeChars]

theorem unescapeChars_bracket (rest : List Char) :
    unescapeChars ('[' :: rest) = '[' :: unescapeChars rest := by
  cases rest with
  | nil => rfl
  | cons next others => simp [unescapeChars]

/-- The quotes of a literal are shown, whatever stands behind it. -/
theorem unescape_literal (literal : String) (behind : String) :
    ∃ rest, (unescape (escapeLiteral literal ++ behind)).toList = '\'' :: rest := by
  rw [unescape, String.toList_ofList, String.toList_append, escapeLiteral, String.toList_ofList,
    escapeLiteralChars, List.append_assoc, List.append_assoc]
  exact ⟨_, unescapeChars_quote _⟩

theorem unescape_charSet {set : String} {body : List Char} (bracket : set.toList = '[' :: body) :
    ∃ rest, (unescape (escape set)).toList = '[' :: rest := by
  rw [unescape, String.toList_ofList, escape, String.toList_ofList, bracket]
  exact ⟨_, unescapeChars_bracket _⟩

end Label

/-- Remarks stand on the track without a box. -/
def remarks : List String := [epsilonLabel, predicateLabel, exclusionLabel]

/-- What can be read in a diagram with these references. -/
inductive Readable (references : List String) : String → Prop where
  | reference {name : String} (isWord : IsWord name) (member : name ∈ references) :
      Readable references name
  | remark {text : String} (known : text ∈ remarks) : Readable references text
  | wildcard {text : String} (known : text ∈ [anyCharacterLabel, anyTokenLabel]) :
      Readable references text
  | quoted {text : String} {c : Char} {rest : List Char} (spelled : text.toList = c :: rest)
      (mark : c ∈ ['\'', '[']) : Readable references text

namespace Readable

variable {references more : List String} {text : String}

theorem mono (readable : Readable references text) (kept : ∀ name ∈ references, name ∈ more) :
    Readable more text := by
  cases readable with
  | reference isWord member => exact .reference isWord (kept text member)
  | remark known => exact .remark known
  | wildcard known => exact .wildcard known
  | quoted spelled mark => exact .quoted spelled mark

end Readable

namespace Diagram

/-- The labels of the leaves, from left to right. -/
def labels (diagram : Diagram) : List String := diagram.preorder.filterMap label?

def labelsAll (diagrams : List Diagram) : List String := (preorderAll diagrams).filterMap label?

@[simp]
theorem labelsAll_nil : labelsAll [] = [] := rfl

@[simp]
theorem labelsAll_cons (diagram : Diagram) (rest : List Diagram) :
    labelsAll (diagram :: rest) = diagram.labels ++ labelsAll rest := by
  simp only [labelsAll, preorderAll, List.filterMap_append, labels]

@[simp]
theorem labels_sequence (items : List Diagram) : (sequence items).labels = labelsAll items := rfl

@[simp]
theorem labels_choice (selected : Nat) (branches : List Diagram) :
    (choice selected branches).labels = labelsAll branches := rfl

@[simp]
theorem labels_terminal (label : String) : (terminal label).labels = [label] := rfl

@[simp]
theorem labels_nonTerminal (label : String) : (nonTerminal label).labels = [label] := rfl

@[simp]
theorem labels_comment (label : String) : (comment label).labels = [label] := rfl

end Diagram

@[simp]
theorem Suffix.diagram_labels (suffix : Option Suffix) (item : Diagram) :
    (Suffix.diagram suffix item).labels = item.labels := by
  unfold Suffix.diagram
  split <;> rfl

/-- The label that a leaf is drawn with. -/
def Atom.leafLabel? (kind : RuleKind) : Atom → Option String
  | .literal text => some (Label.escapeLiteral text)
  | .range first last => some (Label.escapeLiteral first ++ " .. " ++ Label.escapeLiteral last)
  | .charSet text => some (Label.escape text)
  | .reference name _ => some (Label.escape name.value)
  | .wildcard => (wildcardDiagram kind).label?
  | .excluding _ | .excludingAny _ => none

section Leaves

variable {Holds : String → Prop} (kind : RuleKind)

/-- All leaves among the atoms have labels of a kind. -/
def LeavesHold (Holds : String → Prop) (leaves : List Atom) : Prop :=
  ∀ leaf ∈ leaves, ∀ label ∈ leaf.leafLabel? kind, Holds label

theorem leavesHold_append {first second : List Atom} :
    LeavesHold kind Holds (first ++ second) ↔
      LeavesHold kind Holds first ∧ LeavesHold kind Holds second :=
  List.forall_mem_append

/-- A leaf is drawn with its label only. -/
theorem forall_mem_leaf {leaf : Atom} {label : String} (shown : leaf.leafLabel? kind = some label) :
    (∀ found ∈ [label], Holds found) ↔ LeavesHold kind Holds [leaf] := by
  simp only [LeavesHold, List.forall_mem_singleton, shown, Option.mem_some_iff, forall_eq']

mutual

theorem Atom.forall_labels (remarked : ∀ text ∈ remarks, Holds text) : ∀ (atom : Atom),
    (∀ label ∈ (atom.diagram kind).labels, Holds label) ↔ LeavesHold kind Holds atom.leaves
  | .literal _ | .range _ _ | .charSet _ | .reference _ _ => forall_mem_leaf kind rfl
  | .wildcard => by cases kind <;> exact forall_mem_leaf _ rfl
  | .excluding operand => by
      rw [Atom.diagram, Diagram.labels_sequence, Diagram.labelsAll_cons, Diagram.labelsAll_cons,
        Diagram.labelsAll_nil, List.append_nil]
      exact List.forall_mem_cons.trans
        ((and_iff_right (remarked _ (by decide))).trans (Atom.forall_labels remarked operand))
  | .excludingAny operands => by
      rw [Atom.diagram, Diagram.labels_sequence, Diagram.labelsAll_cons, Diagram.labelsAll_cons,
        Diagram.labelsAll_nil, List.append_nil, Diagram.labels_choice]
      exact List.forall_mem_cons.trans
        ((and_iff_right (remarked _ (by decide))).trans (atoms_forall_labels remarked operands))

theorem atoms_forall_labels (remarked : ∀ text ∈ remarks, Holds text) : ∀ (atoms : List Atom),
    (∀ label ∈ Diagram.labelsAll (atomDiagrams kind atoms), Holds label) ↔
      LeavesHold kind Holds (atomLeaves atoms)
  | [] => iff_of_true (List.forall_mem_nil _) (List.forall_mem_nil _)
  | atom :: rest => by
      rw [atomDiagrams, Diagram.labelsAll_cons, List.forall_mem_append,
        Atom.forall_labels remarked atom, atoms_forall_labels remarked rest, ← leavesHold_append]
      rfl

end

mutual

theorem Content.forall_labels (remarked : ∀ text ∈ remarks, Holds text) : ∀ (content : Content),
    (∀ label ∈ (content.diagram kind).labels, Holds label) ↔ LeavesHold kind Holds content.leaves
  | .atom atom => Atom.forall_labels kind remarked atom
  | .group block => alternatives_forall_labels remarked block
  | .action _ predicate => by
      refine iff_of_true ?_ (List.forall_mem_nil _)
      cases predicate with
      | true => exact List.forall_mem_singleton.mpr (remarked _ (by decide))
      | false => exact List.forall_mem_singleton.mpr (remarked _ (by decide))

theorem Element.forall_labels (remarked : ∀ text ∈ remarks, Holds text) : ∀ (element : Element),
    (∀ label ∈ (element.diagram kind).labels, Holds label) ↔ LeavesHold kind Holds element.leaves
  | ⟨content, _, suffix⟩ => by
      rw [Element.diagram, Suffix.diagram_labels]
      exact Content.forall_labels remarked content

theorem elements_forall_labels (remarked : ∀ text ∈ remarks, Holds text) :
    ∀ (elements : List Element),
      (∀ label ∈ Diagram.labelsAll (elementDiagrams kind elements), Holds label) ↔
        LeavesHold kind Holds (elementLeaves elements)
  | [] => iff_of_true (List.forall_mem_nil _) (List.forall_mem_nil _)
  | element :: rest => by
      rw [elementDiagrams, Diagram.labelsAll_cons, List.forall_mem_append,
        Element.forall_labels remarked element, elements_forall_labels remarked rest,
        ← leavesHold_append]
      rfl

theorem Alternative.forall_labels (remarked : ∀ text ∈ remarks, Holds text) :
    ∀ (alternative : Alternative), (∀ label ∈ (alternative.diagram kind).labels, Holds label) ↔
      LeavesHold kind Holds alternative.leaves
  | ⟨[], _, _, _⟩ =>
      iff_of_true (List.forall_mem_singleton.mpr (remarked _ (by decide))) (List.forall_mem_nil _)
  | ⟨element :: rest, _, _, _⟩ => elements_forall_labels remarked (element :: rest)

theorem alternatives_forall_labels (remarked : ∀ text ∈ remarks, Holds text) :
    ∀ (block : List Alternative),
      (∀ label ∈ Diagram.labelsAll (alternativeDiagrams kind block), Holds label) ↔
        LeavesHold kind Holds (blockLeaves block)
  | [] => iff_of_true (List.forall_mem_nil _) (List.forall_mem_nil _)
  | alternative :: rest => by
      rw [alternativeDiagrams, Diagram.labelsAll_cons, List.forall_mem_append,
        Alternative.forall_labels remarked alternative, alternatives_forall_labels remarked rest,
        ← leavesHold_append]
      rfl

end

end Leaves

/-- What remarks have in common holds of all labels as soon as it holds of those of the leaves. -/
theorem Rule.forall_labels {Holds : String → Prop} (remarked : ∀ text ∈ remarks, Holds text)
    (rule : Rule) : (∀ label ∈ rule.diagram.labels, Holds label) ↔
      ∀ leaf ∈ blockLeaves rule.body, ∀ label ∈ leaf.leafLabel? rule.kind, Holds label :=
  alternatives_forall_labels rule.kind remarked rule.body

/-- All labels can be read. -/
def AllReadable (references labels : List String) : Prop :=
  ∀ label ∈ labels, Readable references (Label.unescape label)

theorem Atom.leafLabel_readable {kind : RuleKind} {references : List String} {leaf : Atom}
    (shaped : ∀ token ∈ leaf.tokens, token.Shaped)
    (refers : ∀ name ∈ leaf.referent?, name ∈ references) :
    ∀ label ∈ leaf.leafLabel? kind, Readable references (Label.unescape label) := by
  rintro label shown
  cases leaf with
  | literal text =>
      cases shown
      obtain ⟨rest, spelled⟩ := Label.unescape_literal text ""
      rw [String.append_empty] at spelled
      exact .quoted spelled (by decide)
  | range first last =>
      cases shown
      obtain ⟨rest, spelled⟩ := Label.unescape_literal first (" .. " ++ Label.escapeLiteral last)
      rw [← String.append_assoc] at spelled
      exact .quoted spelled (by decide)
  | charSet text =>
      cases shown
      obtain ⟨body, bracket, -⟩ := shaped _ (List.mem_singleton_self _)
      obtain ⟨rest, spelled⟩ := Label.unescape_charSet bracket
      exact .quoted spelled (by decide)
  | reference name arguments =>
      cases shown
      have isWord : IsWord name.value := isWord_of_shaped (shaped _ (List.mem_cons_self ..))
      rw [Label.escape_of_isWord isWord, Label.unescape_of_isWord isWord]
      exact .reference isWord (refers _ rfl)
  | wildcard =>
      cases kind with
      | lexer => cases shown; exact .wildcard (by decide)
      | parser => cases shown; exact .wildcard (by decide)
  | excluding operand => cases shown
  | excludingAny operands => cases shown

namespace Grammar

variable {source : String} {found : Grammar}

/-- In a grammar that has been read, leaves are spelled by scanned tokens. -/
theorem leaf_shaped (parsed : parse source = .ok found) {rule : Rule} (listed : rule ∈ found.rules)
    {leaf : Atom} (inBody : leaf ∈ blockLeaves rule.body) :
    ∀ token ∈ leaf.tokens, token.Shaped := by
  obtain ⟨lexemes, rest, scanned, read⟩ := parse_eq_ok.mp parsed
  obtain ⟨_, -, -, known⟩ := body_tokens scanned read listed
  exact fun token member => (known token (mem_joinedBy (blockLeaves_token member _ inBody))).1

/-- In a grammar that has been read, what a rule shows can be read next to its references. -/
theorem diagram_readable (parsed : parse source = .ok found) {rule : Rule}
    (listed : rule ∈ found.rules) :
    AllReadable (blockReferences rule.body) rule.diagram.labels := by
  have remarked : ∀ text ∈ remarks, Label.unescape text ∈ remarks := by decide
  refine (rule.forall_labels fun text known => .remark (remarked text known)).mpr ?_
  intro leaf inBody
  refine Atom.leafLabel_readable (leaf_shaped parsed listed inBody) fun name refers => ?_
  rw [blockReferences_leaves]
  exact List.mem_filterMap.mpr ⟨leaf, inBody, refers⟩

/-- What the diagram of a name shows is a target of the name, a remark or no name at all. -/
theorem drawn_readable (parsed : parse source = .ok found) {name : String} {diagram : Diagram}
    (drawn : found.drawn.diagram? name = some diagram) :
    AllReadable (found.drawn.graph.targetsOf name) diagram.labels := by
  rw [drawn_diagram?, Option.map_eq_some_iff] at drawn
  obtain ⟨rule, last, rfl⟩ := drawn
  have declared := List.mem_of_getLast? last
  intro label member
  refine (diagram_readable parsed (List.mem_filter.mp declared).1 label member).mono ?_
  intro target refers
  rw [drawn_targetsOf, ReferenceGraph.mem_fresh]
  exact ⟨List.mem_flatMap.mpr ⟨rule, declared, refers⟩, List.not_mem_nil⟩

/-- Grammars and their rules are named by words. -/
theorem names_words (parsed : parse source = .ok found) :
    IsWord found.name.value ∧ ∀ rule ∈ found.rules, IsWord rule.name.value := by
  obtain ⟨lexemes, rest, scanned, read⟩ := parse_eq_ok.mp parsed
  obtain ⟨⟨⟨-, spelled⟩, formed⟩, -⟩ := Parse.grammar_builds (significant_shaped scanned) read
  exact ⟨isWord_of_shaped spelled, fun rule listed => isWord_of_shaped (formed rule listed).spelled⟩

theorem declared_of_drawn {grammar : Grammar} {name : String}
    (drawn : (grammar.drawn.diagram? name).isSome = true) :
    ∃ rule ∈ grammar.rules, rule.name.value = name := by
  rw [drawn_diagram?, Option.isSome_map] at drawn
  obtain ⟨rule, last⟩ := Option.isSome_iff_exists.mp drawn
  obtain ⟨listed, same⟩ := List.mem_filter.mp (List.mem_of_getLast? last)
  exact ⟨rule, listed, of_decide_eq_true same⟩

/-- Only words have a diagram. -/
theorem isWord_of_drawn (parsed : parse source = .ok found) {name : String}
    (drawn : (found.drawn.diagram? name).isSome = true) : IsWord name := by
  obtain ⟨rule, listed, rfl⟩ := declared_of_drawn drawn
  exact (names_words parsed).2 rule listed

end Grammar

end Railroad
