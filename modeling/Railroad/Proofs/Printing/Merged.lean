import Railroad.Proofs.Printing.RoundTrip

/-!
# Sets that are read as arguments

Brackets behind a bare reference are read as its arguments, also where the tree has a character
set.  A tree in which all such sets are taken as arguments has the same tokens, and it can be read
again.  A space is lost with each of these sets, so the written form is the same only if there are
none.
-/

namespace Railroad

namespace Element

/-- A bare reference and the set behind it as one element. -/
def merge? : Element → Element → Option Element
  | ⟨.atom (.reference name none), label, none⟩, ⟨.atom (.charSet text), none, suffix⟩ =>
      if RuleKind.ofName name.value = .parser then
        some ⟨.atom (.reference name (some text)), label, suffix⟩
      else none
  | _, _ => none

/-- The first two elements are the third one when they are read. -/
inductive Merges : Element → Element → Element → Prop where
  | arguments {name : Located String} {text : String} {label : Option ElementLabel}
      {suffix : Option Suffix} (kind : RuleKind.ofName name.value = .parser) :
      Merges ⟨.atom (.reference name none), label, none⟩ ⟨.atom (.charSet text), none, suffix⟩
        ⟨.atom (.reference name (some text)), label, suffix⟩

/-- The second element is no set that could be the arguments of the first. -/
def Apart (first second : Element) : Prop :=
  first.isBareReference = true → second.isBareSet = false

variable {first second whole : Element} {rest elements : List Element}

theorem merges_of_merge? (found : first.merge? second = some whole) :
    first.Merges second whole := by
  unfold merge? at found
  split at found
  · split at found
    next kind =>
      cases found
      exact .arguments kind
    next => cases found
  · cases found

theorem apart_of_merge? (found : first.merge? second = none) : first.Apart second := by
  intro bare
  unfold merge? at found
  split at found
  next =>
    split at found
    next => cases found
    next other => exact absurd (eq_of_beq bare) other
  next unlike =>
    unfold isBareSet
    split
    · unfold isBareReference Atom.isBare at bare
      split at bare
      · split at bare
        · exact (unlike _ _ _ _ rfl rfl).elim
        · cases bare
      · cases bare
    · rfl

namespace Merges

theorem not_apart (merges : first.Merges second whole) : ¬ first.Apart second := by
  cases merges with
  | arguments kind =>
      intro apart
      have bare : (Atom.reference _ none).isBare = true := beq_iff_eq.mpr kind
      cases apart bare

theorem tokens_eq (merges : first.Merges second whole) :
    whole.tokens = first.tokens ++ second.tokens := by
  cases merges
  simp [Element.tokens, Content.tokens, Atom.tokens]

theorem text_eq (merges : first.Merges second whole) : whole.text = first.text ++ second.text := by
  cases merges
  simp [Element.text, Content.text, Atom.text, String.append_assoc]

theorem nested_eq (merges : first.Merges second whole) :
    whole.nested = first.nested ++ second.nested := by
  cases merges
  rfl

theorem formed (merges : first.Merges second whole) (formed : first.Formed) : whole.Formed := by
  cases merges with
  | arguments kind =>
      refine ⟨⟨formed.content.1, fun lexer => ?_⟩, formed.label, nofun⟩
      rw [kind] at lexer
      cases lexer

/-- What has arguments takes no others. -/
theorem apart (merges : first.Merges second whole) (next : Element) : whole.Apart next := by
  cases merges with
  | @arguments name text label suffix =>
      intro bare
      cases suffix <;> cases bare

end Merges

/-- An element in front of others; it is merged with the first of them where it can be. -/
def ahead (first : Element) : List Element → List Element
  | [] => [first]
  | second :: rest =>
      match first.merge? second with
      | some whole => whole :: rest
      | none => first :: second :: rest

/-- An element is put in front of the others, or it is merged with the first of them. -/
theorem ahead_cases (first : Element) (rest : List Element) :
    (first.ahead rest = first :: rest ∧ ∀ second ∈ rest.head?, first.Apart second) ∨
      ∃ second whole others, first.Merges second whole ∧ rest = second :: others ∧
        first.ahead rest = whole :: others := by
  cases rest with
  | nil => exact .inl ⟨rfl, nofun⟩
  | cons second others =>
      cases found : first.merge? second with
      | none =>
          refine .inl ⟨by rw [ahead, found], ?_⟩
          rintro _ ⟨⟩
          exact apart_of_merge? found
      | some whole =>
          exact .inr ⟨second, whole, others, merges_of_merge? found, rfl, by rw [ahead, found]⟩

end Element

/-- The elements with every set merged that can be. -/
def mergeSets (elements : List Element) : List Element := elements.foldr Element.ahead []

theorem mergeSets_cons (first : Element) (rest : List Element) :
    mergeSets (first :: rest) = first.ahead (mergeSets rest) := rfl

section

variable {elements : List Element}

/-- What is put together from the elements in their order is the same after merging. -/
theorem mergeSets_flatMap {α : Type} {parts : Element → List α}
    (whole_parts : ∀ {first second whole : Element}, first.Merges second whole →
      parts whole = parts first ++ parts second) (elements : List Element) :
    (mergeSets elements).flatMap parts = elements.flatMap parts := by
  induction elements with
  | nil => rfl
  | cons first rest ih =>
      rw [mergeSets_cons, List.flatMap_cons, ← ih]
      rcases first.ahead_cases (mergeSets rest) with ⟨same, -⟩ | ⟨_, _, _, merges, split, same⟩
      · rw [same, List.flatMap_cons]
      · rw [same, split, List.flatMap_cons, List.flatMap_cons, whole_parts merges,
          List.append_assoc]

theorem mergeSets_formed (formed : ∀ element ∈ elements, element.Formed) :
    ∀ element ∈ mergeSets elements, element.Formed := by
  induction elements with
  | nil => exact formed
  | cons first rest ih =>
      obtain ⟨here, later⟩ := List.forall_mem_cons.mp formed
      rw [mergeSets_cons]
      rcases first.ahead_cases (mergeSets rest) with ⟨same, -⟩ | ⟨_, _, _, merges, split, same⟩
      · rw [same]
        exact List.forall_mem_cons.mpr ⟨here, ih later⟩
      · have others := ih later
        rw [split] at others
        rw [same]
        exact List.forall_mem_cons.mpr ⟨merges.formed here, (List.forall_mem_cons.mp others).2⟩

theorem mergeSets_ne_nil (some : elements ≠ []) : mergeSets elements ≠ [] := by
  obtain ⟨first, rest, rfl⟩ := List.exists_cons_of_ne_nil some
  rw [mergeSets_cons]
  rcases first.ahead_cases (mergeSets rest) with ⟨same, -⟩ | ⟨_, _, _, -, -, same⟩
  · exact same ▸ List.cons_ne_nil _ _
  · exact same ▸ List.cons_ne_nil _ _

theorem mergeSets_isChain (elements : List Element) :
    (mergeSets elements).IsChain Element.Apart := by
  induction elements with
  | nil => exact .nil
  | cons first rest ih =>
      rw [mergeSets_cons]
      rcases first.ahead_cases (mergeSets rest) with ⟨same, apart⟩ | ⟨_, _, _, merges, split, same⟩
      · rw [same]
        exact List.isChain_cons.mpr ⟨apart, ih⟩
      · rw [split] at ih
        rw [same]
        exact List.isChain_cons.mpr ⟨fun next _ => merges.apart next, (List.isChain_cons.mp ih).2⟩

theorem mergeSets_of_isChain (apart : elements.IsChain Element.Apart) :
    mergeSets elements = elements := by
  induction elements with
  | nil => rfl
  | cons first rest ih =>
      obtain ⟨here, later⟩ := List.isChain_cons.mp apart
      rw [mergeSets_cons, ih later]
      rcases first.ahead_cases rest with ⟨same, -⟩ | ⟨second, _, _, merges, split, -⟩
      · exact same
      · exact absurd (here second (by rw [split]; rfl)) merges.not_apart

theorem mergeSets_length_le (elements : List Element) :
    (mergeSets elements).length ≤ elements.length := by
  induction elements with
  | nil => exact Nat.le_refl _
  | cons first rest ih =>
      rw [mergeSets_cons, List.length_cons]
      rcases first.ahead_cases (mergeSets rest) with ⟨same, -⟩ | ⟨_, _, _, -, split, same⟩
      · rw [same, List.length_cons]
        omega
      · rw [split, List.length_cons] at ih
        rw [same, List.length_cons]
        omega

/-- Merging makes a list of elements shorter, unless there is nothing to merge. -/
theorem mergeSets_length_eq_iff :
    (mergeSets elements).length = elements.length ↔ elements.IsChain Element.Apart := by
  refine ⟨fun size => ?_, fun apart => by rw [mergeSets_of_isChain apart]⟩
  induction elements with
  | nil => exact .nil
  | cons first rest ih =>
      have short := mergeSets_length_le rest
      rw [mergeSets_cons, List.length_cons] at size
      rcases first.ahead_cases (mergeSets rest) with ⟨same, apart⟩ | ⟨_, _, _, -, split, same⟩
      · rw [same, List.length_cons] at size
        have later := ih (by omega)
        rw [mergeSets_of_isChain later] at apart
        exact List.isChain_cons.mpr ⟨apart, later⟩
      · rw [split, List.length_cons] at short
        rw [same, List.length_cons] at size
        omega

end

/-! ## Merged trees -/

mutual

def Content.merged : Content → Content
  | .group block => .group (blockMerged block)
  | content => content

def Element.merged : Element → Element
  | ⟨content, label, suffix⟩ => ⟨content.merged, label, suffix⟩

def elementsMerged : List Element → List Element
  | [] => []
  | element :: rest => element.merged :: elementsMerged rest

def Alternative.merged : Alternative → Alternative
  | ⟨elements, options, label, commands⟩ =>
      ⟨mergeSets (elementsMerged elements), options, label, commands⟩

/-- The block with all sets merged that are read as arguments, at every depth. -/
def blockMerged : List Alternative → List Alternative
  | [] => []
  | alternative :: rest => alternative.merged :: blockMerged rest

end

def Rule.merged (rule : Rule) : Rule := { rule with body := blockMerged rule.body }

def Grammar.merged (grammar : Grammar) : Grammar :=
  { grammar with rules := grammar.rules.map Rule.merged }

theorem elementsMerged_eq_map (elements : List Element) :
    elementsMerged elements = elements.map Element.merged := by
  induction elements with
  | nil => rfl
  | cons element rest ih => rw [elementsMerged, ih, List.map_cons]

theorem elementsMerged_length (elements : List Element) :
    (elementsMerged elements).length = elements.length := by
  rw [elementsMerged_eq_map, List.length_map]

theorem elementsMerged_ne_nil {elements : List Element} (some : elements ≠ []) :
    elementsMerged elements ≠ [] := by
  obtain ⟨first, rest, rfl⟩ := List.exists_cons_of_ne_nil some
  exact List.cons_ne_nil _ _

theorem blockMerged_ne_nil {block : Block} (some : block ≠ []) : blockMerged block ≠ [] := by
  obtain ⟨first, rest, rfl⟩ := List.exists_cons_of_ne_nil some
  exact List.cons_ne_nil _ _

theorem elementTokens_mergeSets (elements : List Element) :
    elementTokens (mergeSets elements) = elementTokens elements := by
  rw [elementTokens_eq_flatMap, elementTokens_eq_flatMap]
  exact mergeSets_flatMap Element.Merges.tokens_eq elements

mutual

theorem Content.merged_tokens : ∀ content : Content, content.merged.tokens = content.tokens
  | .atom _ | .action _ _ => rfl
  | .group block => by rw [Content.merged, Content.tokens, Content.tokens, blockMerged_tokens block]

theorem elementsMerged_tokens : ∀ elements : List Element,
    elementTokens (elementsMerged elements) = elementTokens elements
  | [] => rfl
  | ⟨content, label, suffix⟩ :: rest => by
      rw [elementsMerged, elementTokens, elementTokens, elementsMerged_tokens rest, Element.merged,
        Element.tokens, Element.tokens, Content.merged_tokens content]

theorem blockMerged_tokens : ∀ block : Block,
    alternativeTokens (blockMerged block) = alternativeTokens block
  | [] => rfl
  | ⟨elements, options, label, commands⟩ :: rest => by
      rw [blockMerged, alternativeTokens, alternativeTokens, blockMerged_tokens rest,
        Alternative.merged, Alternative.tokens, Alternative.tokens, elementTokens_mergeSets,
        elementsMerged_tokens elements]

end

theorem Rule.merged_tokens (rule : Rule) : rule.merged.tokens = rule.tokens := by
  simp only [Rule.tokens, Rule.merged, blockTokens, blockMerged_tokens]

/-- The tokens of a grammar do not tell which sets are arguments. -/
theorem Grammar.merged_printedTokens (grammar : Grammar) :
    grammar.merged.printedTokens = grammar.printedTokens := by
  simp only [Grammar.printedTokens, Grammar.merged, List.flatMap_map, Rule.merged_tokens]

theorem elementsNested_eq_flatMap (elements : List Element) :
    elementsNested elements = elements.flatMap Element.nested := by
  induction elements with
  | nil => rfl
  | cons element rest ih => rw [elementsNested, ih, List.flatMap_cons]

theorem elementsNested_mergeSets (elements : List Element) :
    elementsNested (mergeSets elements) = elementsNested elements := by
  rw [elementsNested_eq_flatMap, elementsNested_eq_flatMap]
  exact mergeSets_flatMap Element.Merges.nested_eq elements

mutual

theorem Content.merged_nested : ∀ content : Content,
    content.merged.nested = content.nested.map Alternative.merged
  | .atom _ | .action _ _ => rfl
  | .group block => blockMerged_nested block

theorem elementsMerged_nested : ∀ elements : List Element,
    elementsNested (elementsMerged elements) = (elementsNested elements).map Alternative.merged
  | [] => rfl
  | ⟨content, label, suffix⟩ :: rest => by
      rw [elementsMerged, elementsNested, elementsNested, List.map_append,
        elementsMerged_nested rest, Element.merged, Element.nested, Element.nested,
        Content.merged_nested content]

theorem blockMerged_nested : ∀ block : Block,
    nestedAlternatives (blockMerged block) = (nestedAlternatives block).map Alternative.merged
  | [] => rfl
  | ⟨elements, options, label, commands⟩ :: rest => by
      rw [blockMerged, nestedAlternatives, nestedAlternatives, List.map_append,
        blockMerged_nested rest, Alternative.merged, Alternative.nested, Alternative.nested,
        List.map_cons, elementsNested_mergeSets, elementsMerged_nested elements,
        Alternative.merged]

end

theorem Element.Formed.merged {element : Element} (formed : element.Formed) :
    element.merged.Formed := by
  obtain ⟨content, label, suffix⟩ := element
  obtain ⟨inner, labelled, alone⟩ := formed
  refine ⟨?_, labelled, fun action => alone ?_⟩
  · cases content with
    | atom | action => exact inner
    | group block => exact blockMerged_ne_nil inner
  · cases content with
    | atom | action => exact action
    | group => cases action

theorem Alternative.Formed.merged {alternative : Alternative} (formed : alternative.Formed) :
    alternative.merged.Formed := by
  obtain ⟨elements, options, label, commands⟩ := alternative
  obtain ⟨each, labelled, commanded⟩ := formed
  refine ⟨mergeSets_formed ?_, labelled, commanded⟩
  rw [elementsMerged_eq_map]
  exact List.forall_mem_map.mpr fun element listed => (each element listed).merged

theorem FormedBlock.merged {block : Block} (formed : FormedBlock block) :
    FormedBlock (blockMerged block) := by
  refine ⟨blockMerged_ne_nil formed.1, ?_⟩
  rw [blockMerged_nested]
  exact List.forall_mem_map.mpr fun alternative member => (formed.2 alternative member).merged

theorem Alternative.merged_separated (alternative : Alternative) :
    alternative.merged.Separated := by
  cases alternative with
  | mk elements options label commands => exact mergeSets_isChain (elementsMerged elements)

/-- A formed rule can be read again once its sets are merged. -/
theorem Rule.Formed.restorable {rule : Rule} (formed : rule.Formed) : rule.merged.Restorable := by
  refine ⟨⟨formed.name, formed.spelled, formed.kind, formed.body.merged⟩, ?_⟩
  rw [Rule.merged, blockMerged_nested]
  exact List.forall_mem_map.mpr fun alternative _ => alternative.merged_separated

mutual

theorem Content.merged_eq_self : ∀ content : Content,
    (∀ nested ∈ content.nested, nested.Separated) → content.merged = content
  | .atom _, _ | .action _ _, _ => rfl
  | .group block, separated => by rw [Content.merged, blockMerged_eq_self block separated]

theorem elementsMerged_eq_self : ∀ elements : List Element,
    (∀ nested ∈ elementsNested elements, nested.Separated) → elementsMerged elements = elements
  | [], _ => rfl
  | ⟨content, label, suffix⟩ :: rest, separated => by
      obtain ⟨here, later⟩ := List.forall_mem_append.mp separated
      rw [elementsMerged, elementsMerged_eq_self rest later, Element.merged,
        Content.merged_eq_self content here]

theorem blockMerged_eq_self : ∀ block : Block,
    (∀ nested ∈ nestedAlternatives block, nested.Separated) → blockMerged block = block
  | [], _ => rfl
  | ⟨elements, options, label, commands⟩ :: rest, separated => by
      obtain ⟨here, later⟩ := List.forall_mem_append.mp separated
      obtain ⟨own, inner⟩ := List.forall_mem_cons.mp here
      rw [blockMerged, blockMerged_eq_self rest later, Alternative.merged,
        elementsMerged_eq_self elements inner, mergeSets_of_isChain own]

end

theorem Grammar.merged_eq_self {grammar : Grammar}
    (separated : ∀ rule ∈ grammar.rules, ∀ alternative ∈ nestedAlternatives rule.body,
      alternative.Separated) : grammar.merged = grammar := by
  have same : ∀ rule ∈ grammar.rules, rule.merged = rule := fun rule listed => by
    rw [Rule.merged, blockMerged_eq_self rule.body (separated rule listed)]
  rw [Grammar.merged, List.map_congr_left same, List.map_id']

/-- The number of elements in all the alternatives. -/
def elementCount (alternatives : List Alternative) : Nat :=
  (alternatives.flatMap Alternative.elements).length

theorem elementCount_cons (first : Alternative) (rest : List Alternative) :
    elementCount (first :: rest) = first.elements.length + elementCount rest := by
  rw [elementCount, List.flatMap_cons, List.length_append]
  rfl

theorem elementCount_append (first second : List Alternative) :
    elementCount (first ++ second) = elementCount first + elementCount second := by
  rw [elementCount, List.flatMap_append, List.length_append]
  rfl

/-- The number of characters in the texts of the elements. -/
def textLength (elements : List Element) : Nat :=
  (elements.flatMap fun element => element.text.toList).length

theorem textLength_cons (first : Element) (rest : List Element) :
    textLength (first :: rest) = first.text.length + textLength rest := by
  rw [textLength, List.flatMap_cons, List.length_append, String.length_toList]
  rfl

/-- There is a space between any two elements. -/
theorem elementTexts_joined_length {elements : List Element} (some : elements ≠ []) :
    (" ".intercalate (elementTexts elements)).length + 1 = textLength elements + elements.length := by
  induction elements with
  | nil => exact absurd rfl some
  | cons first rest ih =>
      rw [textLength_cons, List.length_cons]
      cases rest with
      | nil => rfl
      | cons second others =>
          have later := ih (List.cons_ne_nil _ _)
          have space : " ".length = 1 := rfl
          rw [elementTexts] at later
          rw [elementTexts, elementTexts, String.intercalate_cons_cons, String.length_append,
            String.length_append]
          omega

theorem textLength_mergeSets (elements : List Element) :
    textLength (mergeSets elements) = textLength elements := by
  rw [textLength, textLength, mergeSets_flatMap]
  exact fun merges => by rw [merges.text_eq, String.toList_append]

/-- With each set that is merged, the space in front of it is lost. -/
theorem mergeSets_joined_length (elements : List Element) :
    (" ".intercalate (elementTexts (mergeSets elements))).length + elements.length =
      (" ".intercalate (elementTexts elements)).length + (mergeSets elements).length := by
  by_cases none : elements = []
  · rw [none]
    rfl
  · have before := elementTexts_joined_length none
    have after := elementTexts_joined_length (mergeSets_ne_nil none)
    rw [textLength_mergeSets] at after
    omega

theorem elementsMerged_joined_length (elements : List Element) :
    (" ".intercalate (elementTexts (elementsMerged elements))).length + textLength elements =
      (" ".intercalate (elementTexts elements)).length + textLength (elementsMerged elements) := by
  by_cases none : elements = []
  · rw [none]
    rfl
  · have before := elementTexts_joined_length none
    have after := elementTexts_joined_length (elementsMerged_ne_nil none)
    rw [elementsMerged_length] at after
    omega

theorem blockText_cons (alternative : Alternative) {rest : Block} (some : rest ≠ []) :
    blockText (alternative :: rest) = alternative.text ++ " | " ++ blockText rest := by
  obtain ⟨second, others, rfl⟩ := List.exists_cons_of_ne_nil some
  exact String.intercalate_cons_cons

mutual

/-- Merging takes as many characters away as elements. -/
theorem Content.merged_length : ∀ content : Content,
    content.merged.text.length + elementCount content.nested =
      content.text.length + elementCount content.merged.nested
  | .atom _ | .action _ _ => rfl
  | .group block => by
      have inner := blockMerged_length block
      simp only [Content.merged, Content.text, Content.nested, String.length_append]
      rw [blockText, blockText] at inner
      omega

theorem elementsMerged_length_add : ∀ elements : List Element,
    textLength (elementsMerged elements) + elementCount (elementsNested elements) =
      textLength elements + elementCount (elementsNested (elementsMerged elements))
  | [] => rfl
  | ⟨content, label, suffix⟩ :: rest => by
      have here := Content.merged_length content
      have later := elementsMerged_length_add rest
      rw [elementsMerged, elementsNested, elementsNested, elementCount_append,
        elementCount_append, textLength_cons, textLength_cons, Element.merged, Element.nested,
        Element.nested]
      simp only [Element.text, String.length_append]
      omega

theorem Alternative.merged_length : ∀ alternative : Alternative,
    alternative.merged.text.length + elementCount alternative.nested =
      alternative.text.length + elementCount alternative.merged.nested
  | ⟨elements, options, label, commands⟩ => by
      have inner := elementsMerged_length_add elements
      have members := elementsMerged_joined_length elements
      have sets := mergeSets_joined_length (elementsMerged elements)
      rw [elementsMerged_length] at sets
      simp only [Alternative.merged, Alternative.text, Alternative.nested, elementCount_cons,
        elementsNested_mergeSets, String.length_append]
      omega

theorem blockMerged_length : ∀ block : Block,
    (blockText (blockMerged block)).length + elementCount (nestedAlternatives block) =
      (blockText block).length + elementCount (nestedAlternatives (blockMerged block))
  | [] => rfl
  | alternative :: rest => by
      have here := Alternative.merged_length alternative
      have later := blockMerged_length rest
      rw [blockMerged, nestedAlternatives, nestedAlternatives, elementCount_append,
        elementCount_append]
      by_cases none : rest = []
      · rw [none] at later ⊢
        exact congrArg (· + 0) here
      · rw [blockText_cons _ none, blockText_cons _ (blockMerged_ne_nil none)]
        simp only [String.length_append]
        omega

end

theorem rules_merged_length (rules : List Rule) :
    (String.join ((rules.map Rule.merged).map fun rule => rule.text ++ "\n")).length +
        elementCount (rules.flatMap fun rule => nestedAlternatives rule.body) =
      (String.join (rules.map fun rule => rule.text ++ "\n")).length +
        elementCount ((rules.flatMap fun rule => nestedAlternatives rule.body).map
          Alternative.merged) := by
  induction rules with
  | nil => rfl
  | cons rule rest ih =>
      have body := blockMerged_length rule.body
      simp only [List.map_cons, String.join_cons, List.flatMap_cons, List.map_append,
        elementCount_append, ← blockMerged_nested, Rule.text, Rule.merged, String.length_append]
        at ih ⊢
      omega

theorem Alternative.merged_elements_le (alternative : Alternative) :
    alternative.merged.elements.length ≤ alternative.elements.length := by
  cases alternative with
  | mk elements options label commands =>
      have short := mergeSets_length_le (elementsMerged elements)
      rwa [elementsMerged_length] at short

theorem Element.merged_apart (first second : Element) :
    first.merged.Apart second.merged ↔ first.Apart second := by
  have reference : first.merged.isBareReference = first.isBareReference := by
    obtain ⟨_ | _ | _, _, _⟩ := first <;> rfl
  have set : second.merged.isBareSet = second.isBareSet := by
    obtain ⟨_ | _ | _, _, _⟩ := second <;> rfl
  rw [Element.Apart, Element.Apart, reference, set]

theorem elementsMerged_isChain {elements : List Element} :
    (elementsMerged elements).IsChain Element.Apart ↔ elements.IsChain Element.Apart := by
  simp only [elementsMerged_eq_map, List.isChain_map, Element.merged_apart]

theorem Alternative.merged_elements_eq_iff (alternative : Alternative) :
    alternative.merged.elements.length = alternative.elements.length ↔
      alternative.Separated := by
  cases alternative with
  | mk elements options label commands =>
      have same := @mergeSets_length_eq_iff (elementsMerged elements)
      rwa [elementsMerged_length, elementsMerged_isChain] at same

/-- Merging takes elements away from every alternative with a set to merge. -/
theorem elementCount_merged (alternatives : List Alternative) :
    elementCount (alternatives.map Alternative.merged) ≤ elementCount alternatives ∧
      (elementCount (alternatives.map Alternative.merged) = elementCount alternatives ↔
        ∀ alternative ∈ alternatives, alternative.Separated) := by
  induction alternatives with
  | nil => exact ⟨Nat.le_refl _, fun _ => List.forall_mem_nil _, fun _ => rfl⟩
  | cons alternative rest ih =>
      obtain ⟨less, same⟩ := ih
      have own := alternative.merged_elements_le
      have ownSame := alternative.merged_elements_eq_iff
      rw [List.forall_mem_cons, ← same, ← ownSame]
      rw [List.map_cons, elementCount_cons, elementCount_cons]
      omega

/-- The written form stays the same if and only if there is no set to merge. -/
theorem Grammar.merged_text_eq_iff {grammar : Grammar} :
    grammar.merged.text = grammar.text ↔
      ∀ rule ∈ grammar.rules, ∀ alternative ∈ nestedAlternatives rule.body,
        alternative.Separated := by
  refine ⟨fun same => ?_, fun separated => by rw [merged_eq_self separated]⟩
  have length := congrArg String.length same
  have balance := rules_merged_length grammar.rules
  simp only [Grammar.text, Grammar.merged, String.length_append] at length
  rw [← List.forall_mem_flatMap, ← (elementCount_merged _).2]
  omega

end Railroad
