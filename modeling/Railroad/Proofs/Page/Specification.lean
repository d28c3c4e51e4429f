import Railroad.Proofs.Diagram.Outline
import Railroad.Proofs.Page.CrossLinks

/-!
# Lines of specifications

The specification of a page is written line by line, one line for each selected rule that has a
diagram.  Nothing in it holds a line feed but the labels of literals and character sets, which are
shown as they stand in the source.
-/

namespace Railroad

namespace Text

/-- The text has no line feed. -/
def OneLine (text : String) : Prop := '\n' ∉ text.toList

instance (text : String) : Decidable (OneLine text) := inferInstanceAs (Decidable (¬_))

@[simp]
theorem oneLine_append {first second : String} :
    OneLine (first ++ second) ↔ OneLine first ∧ OneLine second := by
  rw [OneLine, String.toList_append, List.mem_append, not_or]
  rfl

end Text

open Text (OneLine)

namespace Label

theorem mem_guardCodePoints {c : Char} (other : c ≠ '\\') {text : List Char} :
    c ∈ guardCodePoints text ↔ c ∈ text := by
  induction text using guardCodePoints.induct with
  | case1 => rfl
  | case2 rest ih => simp only [guardCodePoints, List.mem_cons, other, false_or, ih]
  | case3 d rest free ih => rw [guardCodePoints_cons free, List.mem_cons, List.mem_cons, ih]

theorem mem_guardQuotes {c : Char} (other : c ≠ '\\') {text : List Char} :
    c ∈ guardQuotes text ↔ c ∈ text := by
  induction text with
  | nil => rfl
  | cons d rest ih =>
      rw [guardQuotes]
      split
      next quote => rw [quote, List.mem_cons, or_iff_right other, List.mem_cons, List.mem_cons, ih]
      next => rw [List.mem_cons, List.mem_cons, ih]

theorem escape_oneLine {text : String} : OneLine (escape text) ↔ OneLine text := by
  rw [OneLine, escape, String.toList_ofList, escapeChars, mem_guardQuotes (by decide),
    mem_guardCodePoints (by decide)]
  rfl

theorem escapeLiteral_oneLine {text : String} (shaped : (Token.literal text).Shaped) :
    OneLine (escapeLiteral text) ↔ OneLine text := by
  obtain ⟨inner, spelled, label⟩ := escapeLiteral_spelled shaped
  rw [OneLine, OneLine, spelled, label]
  simp [mem_guardCodePoints]

end Label

theorem IsWord.oneLine {word : String} (isWord : IsWord word) : OneLine word :=
  isWord.not_mem (by decide)

/-- Line feeds reach a label from literals and character sets only. -/
theorem Atom.leafLabel?_oneLine {kind : RuleKind} {leaf : Atom}
    (shaped : ∀ token ∈ leaf.tokens, token.Shaped) :
    (∀ label ∈ leaf.leafLabel? kind, OneLine label) ↔ ∀ text ∈ leaf.quoted, OneLine text := by
  cases leaf with
  | literal text =>
      have spelled := shaped (.literal text) (List.mem_singleton_self _)
      simp [leafLabel?, quoted, Label.escapeLiteral_oneLine spelled]
  | range first last =>
      have spelled := shaped (.literal first) (by simp [tokens])
      have spelledToo := shaped (.literal last) (by simp [tokens])
      have between : OneLine " .. " := by decide
      simp [leafLabel?, quoted, between, Label.escapeLiteral_oneLine spelled,
        Label.escapeLiteral_oneLine spelledToo]
  | charSet text => simp [leafLabel?, quoted, Label.escape_oneLine]
  | reference name arguments =>
      have isWord : IsWord name.value := isWord_of_shaped (shaped _ (List.mem_cons_self ..))
      simp [leafLabel?, quoted, Label.escape_oneLine, isWord.oneLine]
  | wildcard => cases kind <;> decide
  | excluding operand => simp [leafLabel?, quoted]
  | excludingAny operands => simp [leafLabel?, quoted]

namespace Diagram

/-- All labels among the nodes are on one line. -/
def AllOneLine (labels : List String) : Prop := ∀ label ∈ labels, OneLine label

theorem oneLine_inside {before inside : String} (here : OneLine before) :
    OneLine (before ++ inside ++ ")") ↔ OneLine inside := by
  have close : OneLine ")" := by decide
  simp [here, close]

theorem oneLine_label {before label : String} (here : OneLine before) :
    OneLine (before ++ label ++ "')") ↔ AllOneLine [label] := by
  have close : OneLine "')" := by decide
  simp [here, close, AllOneLine]

theorem toString_oneLine (n : Nat) : OneLine (toString n) := by
  intro member
  rw [Nat.toString_eq_ofList_toDigits, String.toList_ofList] at member
  exact absurd (Nat.isDigit_of_mem_toDigits (by decide) (by decide) member) (by decide)

mutual

theorem nodeText_oneLine : ∀ (diagram : Diagram),
    OneLine diagram.nodeText ↔ AllOneLine diagram.labels
  | sequence items => (oneLine_inside (by decide)).trans (itemsText_oneLine items)
  | choice selected branches =>
      (oneLine_inside (Text.oneLine_append.mpr ⟨by decide, toString_oneLine selected⟩)).trans
        (branchesText_oneLine branches)
  | optional item | zeroOrMore item | oneOrMore item =>
      (oneLine_inside (by decide)).trans (nodeText_oneLine item)
  | terminal _ | nonTerminal _ | comment _ => oneLine_label (by decide)

theorem itemsText_oneLine : ∀ (items : List Diagram),
    OneLine (itemsText items) ↔ AllOneLine (labelsAll items)
  | [] => iff_of_true (by decide) (List.forall_mem_nil _)
  | item :: rest => by
      rw [itemsText, Text.oneLine_append, nodeText_oneLine item, branchesText_oneLine rest,
        labelsAll_cons]
      exact List.forall_mem_append.symm

theorem branchesText_oneLine : ∀ (branches : List Diagram),
    OneLine (branchesText branches) ↔ AllOneLine (labelsAll branches)
  | [] => iff_of_true (by decide) (List.forall_mem_nil _)
  | branch :: rest => by
      have comma : OneLine ", " := by decide
      rw [branchesText, Text.oneLine_append, Text.oneLine_append, and_iff_right comma,
        nodeText_oneLine branch, branchesText_oneLine rest, labelsAll_cons]
      exact List.forall_mem_append.symm

end

theorem text_oneLine (diagram : Diagram) : OneLine diagram.text ↔ AllOneLine diagram.labels :=
  (oneLine_inside (by decide)).trans (nodeText_oneLine diagram)

end Diagram

/-- No literal and no character set of the rule holds a line feed. -/
def Rule.OneLine (rule : Rule) : Prop :=
  ∀ leaf ∈ blockLeaves rule.body, ∀ text ∈ leaf.quoted, Text.OneLine text

instance (rule : Rule) : Decidable rule.OneLine :=
  inferInstanceAs (Decidable (∀ leaf ∈ blockLeaves rule.body, ∀ text ∈ leaf.quoted,
    Text.OneLine text))

theorem Grammar.diagram_oneLine {source : String} {found : Grammar}
    (parsed : parse source = .ok found) {rule : Rule} (listed : rule ∈ found.rules) :
    OneLine rule.diagram.text ↔ rule.OneLine := by
  have remarked : ∀ text ∈ remarks, OneLine text := by decide
  rw [Diagram.text_oneLine]
  refine (rule.forall_labels remarked).trans (forall₂_congr fun leaf inBody => ?_)
  exact Atom.leafLabel?_oneLine (leaf_shaped parsed listed inBody)

namespace DrawnGrammar

/-- Those of the names that have a diagram, each with its diagram. -/
def shown (drawn : DrawnGrammar) (rules : List String) : List (String × Diagram) :=
  rules.filterMap fun rule => (drawn.diagram? rule).map (rule, ·)

theorem mem_shown {drawn : DrawnGrammar} {rules : List String} {rule : String}
    {diagram : Diagram} :
    (rule, diagram) ∈ drawn.shown rules ↔ rule ∈ rules ∧ drawn.diagram? rule = some diagram := by
  simp [shown]

/-- The line of a rule, without its line feed. -/
def line (shown : String × Diagram) : String := shown.1 ++ " = " ++ shown.2.text

theorem specification_toList (drawn : DrawnGrammar) (rules : List String) :
    (drawn.specification rules).toList =
      ((drawn.shown rules).map fun shown => (line shown).toList).flatMap (· ++ ['\n']) := by
  have lines : rules.filterMap drawn.specificationLine =
      (drawn.shown rules).map fun shown => line shown ++ "\n" := by
    rw [shown, List.map_filterMap]
    congr 1
    funext rule
    rw [specificationLine, Option.map_map]
    rfl
  rw [specification, lines, String.toList_join, List.flatMap_map, List.flatMap_map]
  exact List.flatMap_congr fun shown _ => String.toList_append

end DrawnGrammar

/-- Whether the diagram of a name is that of a rule on one line; the last declaration counts. -/
def Grammar.OneLine (grammar : Grammar) (name : String) : Prop :=
  ∀ rule ∈ (declarationsOf name grammar.rules).getLast?, rule.OneLine

instance (grammar : Grammar) (name : String) : Decidable (grammar.OneLine name) :=
  inferInstanceAs (Decidable (∀ rule ∈ (declarationsOf name grammar.rules).getLast?, rule.OneLine))

theorem Grammar.line_oneLine {source : String} {found : Grammar}
    (parsed : parse source = .ok found) {name : String} {diagram : Diagram}
    (drawn : found.drawn.diagram? name = some diagram) :
    Text.OneLine (DrawnGrammar.line (name, diagram)) ↔ found.OneLine name := by
  have word : IsWord name := isWord_of_drawn parsed (Option.isSome_iff_exists.mpr ⟨_, drawn⟩)
  have equals : Text.OneLine " = " := by decide
  rw [drawn_diagram?, Option.map_eq_some_iff] at drawn
  obtain ⟨rule, last, rfl⟩ := drawn
  have listed : rule ∈ found.rules := (List.mem_filter.mp (List.mem_of_getLast? last)).1
  rw [DrawnGrammar.line, Text.oneLine_append, Text.oneLine_append, diagram_oneLine parsed listed,
    OneLine, last]
  simp [word.oneLine, equals]

theorem Grammar.splitOn_specification {source : String} {found : Grammar}
    (parsed : parse source = .ok found) (rules : List String) :
    (found.drawn.specification rules).toList.splitOn '\n' =
        (found.drawn.shown rules).map (fun shown => (DrawnGrammar.line shown).toList) ++ [[]] ↔
      ∀ shown ∈ found.drawn.shown rules, found.OneLine shown.1 := by
  rw [DrawnGrammar.specification_toList, Text.splitOn_lines, List.forall_mem_map]
  refine forall₂_congr fun shown member => ?_
  exact line_oneLine parsed (DrawnGrammar.mem_shown.mp member).2

namespace GrammarPage

open DrawnGrammar (line)

/--
The specification of a page is the line of every selected rule that has a diagram, each with a
line feed behind it.  It falls into these lines if and only if no literal and no character set of
the rules that are shown holds a line feed.
-/
theorem specification_lines {source : String} {grammar : Grammar}
    (parsed : Grammar.parse source = .ok grammar) (settings : Settings) (renderer : Renderer)
    (fileName : String) (root : Option String) : ∃ page lines,
      build settings renderer fileName source root = .ok page ∧
        lines = (grammar.drawn.shown (grammar.drawn.select root)).map (fun shown =>
          (line shown).toList) ∧
        page.specification.toList = lines.flatMap (· ++ ['\n']) ∧
        (page.specification.toList.splitOn '\n' = lines ++ [[]] ↔
          ∀ shown ∈ grammar.drawn.shown (grammar.drawn.select root), grammar.OneLine shown.1) := by
  obtain ⟨descriptions, built⟩ := build_of_parsed parsed settings renderer fileName root
  refine ⟨_, _, built, rfl, ?_, ?_⟩
  · exact grammar.drawn.specification_toList (grammar.drawn.select root)
  · exact Grammar.splitOn_specification parsed (grammar.drawn.select root)

/-- The set with the line feed is out of reach here. -/
theorem specification_lines_rooted : ∃ grammar page lines,
    Grammar.parse "grammar g; a : '\\n' b ; b : [y] ; c : [\n] ;" = .ok grammar ∧
      build ⟨.standard, none, true, true⟩ (svgRenderer .standard) "g"
        "grammar g; a : '\\n' b ; b : [y] ; c : [\n] ;" (some "a") = .ok page ∧
      lines = (grammar.drawn.shown (grammar.drawn.select (some "a"))).map (fun shown =>
        (line shown).toList) ∧
      page.specification.toList = lines.flatMap (· ++ ['\n']) ∧
      (page.specification.toList.splitOn '\n' = lines ++ [[]] ↔
        ∀ shown ∈ grammar.drawn.shown (grammar.drawn.select (some "a")),
          grammar.OneLine shown.1) := by
  have ok : (Grammar.parse "grammar g; a : '\\n' b ; b : [y] ; c : [\n] ;").isOk = true := by
    decide +kernel
  cases parsed : Grammar.parse "grammar g; a : '\\n' b ; b : [y] ; c : [\n] ;" with
  | error rejection => rw [parsed] at ok; cases ok
  | ok grammar =>
      obtain ⟨page, lines, built, rest⟩ := specification_lines parsed
        ⟨.standard, none, true, true⟩ (svgRenderer .standard) "g" (some "a")
      exact ⟨grammar, page, lines, rfl, built, rest⟩

/-- The label of the set goes over two lines. -/
theorem specification_broken : ∃ grammar page,
    Grammar.parse "grammar g; a : [\n];" = .ok grammar ∧
      build ⟨.standard, none, true, true⟩ (svgRenderer .standard) "g" "grammar g; a : [\n];" none =
        .ok page ∧
      page.specification.toList.splitOn '\n' ≠
        (grammar.drawn.shown (grammar.drawn.select none)).map (fun shown =>
          (line shown).toList) ++ [[]] := by
  have known : (match Grammar.parse "grammar g; a : [\n];" with
    | .ok grammar => decide (¬∀ shown ∈ grammar.drawn.shown (grammar.drawn.select none),
        grammar.OneLine shown.1)
    | .error _ => false) = true := by decide +kernel
  cases parsed : Grammar.parse "grammar g; a : [\n];" with
  | error rejection => rw [parsed] at known; cases known
  | ok grammar =>
      rw [parsed] at known
      obtain ⟨descriptions, built⟩ := build_of_parsed parsed ⟨.standard, none, true, true⟩
        (svgRenderer .standard) "g" none
      refine ⟨grammar, _, rfl, built, fun split => ?_⟩
      exact of_decide_eq_true known ((Grammar.splitOn_specification parsed _).mp split)

end GrammarPage

end Railroad
