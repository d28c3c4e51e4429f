import Railroad.Proofs.Diagram.Quoting

/-!
# Outlines of bodies

What a diagram keeps of the body of a rule.  The outline of a body is the body without all that
is not drawn, and it is known from the diagram: escaping is one to one, the labels of literals,
ranges, sets, references and wildcards look different, and constructs that are nested differently
become different nodes.  Only a literal that holds the mark of a range may look like one, as
`'a\' .. \'b'` looks like `'a' .. 'b'`.
-/

namespace Railroad

namespace Label

theorem guardCodePoints_head (text : List Char) : (guardCodePoints text).head? = text.head? := by
  fun_cases guardCodePoints text <;> rfl

/-- Every backslash in front of `u` has another one in front of it. -/
theorem guardCodePoints_ne (text rest : List Char) :
    guardCodePoints text ≠ '\\' :: 'u' :: rest := by
  intro same
  cases text with
  | nil => cases same
  | cons c later =>
      by_cases exposed : c = '\\' ∧ later.head? = some 'u'
      · obtain ⟨rfl, next⟩ := exposed
        obtain ⟨others, rfl⟩ := List.head?_eq_some_iff.mp next
        rw [guardCodePoints] at same
        exact absurd (List.cons.inj (List.cons.inj same).2).1 (by decide)
      · rw [guardCodePoints_cons fun more slash next => exposed ⟨slash, by rw [next]; rfl⟩] at same
        obtain ⟨slash, behind⟩ := List.cons.inj same
        apply exposed
        rw [← guardCodePoints_head, behind]
        exact ⟨slash, rfl⟩

theorem guardCodePoints_inj {first second : List Char}
    (same : guardCodePoints first = guardCodePoints second) : first = second := by
  induction first using guardCodePoints.induct generalizing second with
  | case1 =>
      have heads := guardCodePoints_head second
      rw [← same] at heads
      exact (List.head?_eq_none_iff.mp heads.symm).symm
  | case2 rest ih =>
      rw [guardCodePoints] at same
      fun_cases guardCodePoints second with
      | case1 => cases same
      | case2 other =>
          rw [guardCodePoints] at same
          simp only [List.cons.injEq, true_and] at same
          rw [ih same]
      | case3 c other free =>
          rw [guardCodePoints_cons free] at same
          exact absurd (List.cons.inj same).2.symm (guardCodePoints_ne other _)
  | case3 c rest free ih =>
      rw [guardCodePoints_cons free] at same
      fun_cases guardCodePoints second with
      | case1 => cases same
      | case2 other =>
          rw [guardCodePoints] at same
          exact absurd (List.cons.inj same).2 (guardCodePoints_ne rest _)
      | case3 d other freeToo =>
          rw [guardCodePoints_cons freeToo] at same
          obtain ⟨rfl, behind⟩ := List.cons.inj same
          rw [ih behind]

theorem guardQuotes_ne (text rest : List Char) : guardQuotes text ≠ '\'' :: rest := by
  intro same
  fun_cases guardQuotes text with
  | case1 => cases same
  | case2 later => cases same
  | case3 c later other =>
      rw [guardQuotes, if_neg other] at same
      exact other (List.cons.inj same).1

theorem guardQuotes_inj {first second : List Char}
    (same : guardQuotes first = guardQuotes second) : first = second := by
  induction first generalizing second with
  | nil =>
      cases second with
      | nil => rfl
      | cons d others =>
          rw [guardQuotes, guardQuotes] at same
          split at same <;> cases same
  | cons c rest ih =>
      cases second with
      | nil =>
          rw [guardQuotes, guardQuotes] at same
          split at same <;> cases same
      | cons d others =>
          rw [guardQuotes, guardQuotes] at same
          by_cases quote : c = '\''
          · by_cases quoteToo : d = '\''
            · rw [if_pos quote, if_pos quoteToo] at same
              rw [quote, quoteToo, ih (List.cons.inj (List.cons.inj same).2).2]
            · rw [if_pos quote, if_neg quoteToo] at same
              exact absurd (List.cons.inj same).2.symm (guardQuotes_ne others _)
          · by_cases quoteToo : d = '\''
            · rw [if_neg quote, if_pos quoteToo] at same
              exact absurd (List.cons.inj same).2 (guardQuotes_ne rest _)
            · rw [if_neg quote, if_neg quoteToo] at same
              obtain ⟨rfl, behind⟩ := List.cons.inj same
              rw [ih behind]

/-- A text is known from its label. -/
theorem escape_inj {first second : String} (same : escape first = escape second) :
    first = second := by
  have labels := congrArg String.toList same
  rw [escape, escape, String.toList_ofList, String.toList_ofList] at labels
  exact String.toList_inj.mp (guardCodePoints_inj (guardQuotes_inj labels))

/-- A scanned literal is its label's body between quotes. -/
theorem escapeLiteral_spelled {text : String} (shaped : (Token.literal text).Shaped) :
    ∃ inner, text.toList = '\'' :: (inner ++ ['\'']) ∧ (escapeLiteral text).toList =
      ['\\', '\''] ++ guardCodePoints inner ++ ['\\', '\''] := by
  obtain ⟨body, spelled, closed⟩ := shaped
  obtain ⟨inner, rfl, -, -⟩ := inner_of_reach closed
  refine ⟨inner, spelled, ?_⟩
  rw [escapeLiteral, String.toList_ofList, spelled, escapeLiteralChars, literalBody,
    if_pos List.getLast?_concat, List.dropLast_concat]

theorem escapeLiteral_inj {first second : String} (shaped : (Token.literal first).Shaped)
    (shapedToo : (Token.literal second).Shaped)
    (same : escapeLiteral first = escapeLiteral second) : first = second := by
  obtain ⟨inner, spelled, label⟩ := escapeLiteral_spelled shaped
  obtain ⟨innerToo, spelledToo, labelToo⟩ := escapeLiteral_spelled shapedToo
  have labels := congrArg String.toList same
  rw [label, labelToo] at labels
  have bodies := List.append_cancel_left (List.append_cancel_right labels)
  apply String.toList_inj.mp
  rw [spelled, spelledToo, guardCodePoints_inj bodies]

section Guarded

variable {part text : List Char}

/-- Guarding code points puts nothing but backslashes into a text. -/
theorem prefix_of_guardCodePoints (free : '\\' ∉ part) (begins : part <+: guardCodePoints text) :
    part <+: text := by
  induction text using guardCodePoints.induct generalizing part with
  | case1 => exact begins
  | case2 rest ih =>
      cases part with
      | nil => exact List.nil_prefix
      | cons c others =>
          rw [guardCodePoints] at begins
          exact absurd ((List.cons_prefix_cons.mp begins).1 ▸ List.mem_cons_self ..) free
  | case3 c rest unexposed ih =>
      cases part with
      | nil => exact List.nil_prefix
      | cons d others =>
          rw [guardCodePoints_cons unexposed] at begins
          obtain ⟨rfl, later⟩ := List.cons_prefix_cons.mp begins
          exact (List.prefix_cons_inj _).mpr (ih (List.not_mem_of_not_mem_cons free) later)

theorem infix_of_guardCodePoints (free : '\\' ∉ part) (inside : part <:+: guardCodePoints text) :
    part <:+: text := by
  induction text using guardCodePoints.induct with
  | case1 => exact inside
  | case2 rest ih =>
      rw [guardCodePoints] at inside
      have behind := infix_of_cons free (infix_of_cons free inside)
      rcases List.infix_cons_iff.mp behind with begins | later
      · rw [← guardCodePoints_plain (by decide)] at begins
        exact List.infix_cons (prefix_of_guardCodePoints free begins).isInfix
      · exact List.infix_cons (List.infix_cons (ih later))
  | case3 c rest unexposed ih =>
      rw [guardCodePoints_cons unexposed] at inside
      rcases List.infix_cons_iff.mp inside with begins | later
      · rw [← guardCodePoints_cons unexposed] at begins
        exact (prefix_of_guardCodePoints free begins).isInfix
      · exact List.infix_cons (ih later)

end Guarded

/-- What stands between the ends of a range. -/
def rangeMark : List Char := " .. ".toList

theorem escapeLiteral_head? (text behind : String) :
    (escapeLiteral text ++ behind).toList.head? = some '\\' := by
  rw [String.toList_append, escapeLiteral, String.toList_ofList, escapeLiteralChars]
  rfl

/-- The label of a literal ends in a quote. -/
theorem escapeLiteral_getLast? (text : String) :
    (escapeLiteral text).toList.getLast? = some '\'' := by
  rw [escapeLiteral, String.toList_ofList, escapeLiteralChars]
  exact List.getLast?_append_of_ne_nil _ (List.cons_ne_nil _ _)

theorem rangeMark_escapeLiteral {text : String} (shaped : (Token.literal text).Shaped)
    (apart : ¬rangeMark <:+: text.toList) : ¬rangeMark <:+: (escapeLiteral text).toList := by
  obtain ⟨inner, spelled, label⟩ := escapeLiteral_spelled shaped
  have layers : (escapeLiteral text).toList =
      '\\' :: '\'' :: (guardCodePoints inner ++ ['\\'] ++ ['\'']) := by
    rw [label, List.append_assoc, List.append_assoc]
    rfl
  intro inside
  rw [layers] at inside
  have opened := infix_of_cons (by decide) (infix_of_cons (by decide) inside)
  have body := infix_of_concat (by decide) (infix_of_concat (by decide) opened)
  apply apart
  rw [spelled]
  exact ((infix_of_guardCodePoints (by decide) body).trans
    (List.prefix_append _ _).isInfix).trans (List.suffix_cons _ _).isInfix

/-- Without the mark in their literals, ranges are known from their labels. -/
theorem range_inj {first last firstToo lastToo : String}
    (apart : ¬rangeMark <:+: (escapeLiteral first).toList)
    (apartToo : ¬rangeMark <:+: (escapeLiteral firstToo).toList)
    (same : escapeLiteral first ++ " .. " ++ escapeLiteral last =
      escapeLiteral firstToo ++ " .. " ++ escapeLiteral lastToo) :
    escapeLiteral first = escapeLiteral firstToo ∧ escapeLiteral last = escapeLiteral lastToo := by
  have texts := congrArg String.toList same
  simp only [String.toList_append, List.append_assoc] at texts
  have ends (text : String) :
      ∀ c ∈ (escapeLiteral text).toList.getLast?, c ∉ rangeMark := by
    rw [escapeLiteral_getLast?]
    rintro c ⟨⟩
    decide
  obtain ⟨firsts, lasts⟩ := separator_inj texts apart apartToo (ends first) (ends firstToo)
  exact ⟨String.toList_inj.mp firsts, String.toList_inj.mp lasts⟩

end Label

/-- What a label shows, as far as its characters tell. -/
inductive LabelStyle where
  | literal
  | range
  | charSet
  | wildcard
  | name
  deriving DecidableEq

namespace LabelStyle

def ofLabel (label : String) : LabelStyle :=
  if label.toList.head? = some '\\' then
    if Label.rangeMark <:+: label.toList then range else literal
  else if label.toList.head? = some '[' then charSet
  else if ' ' ∈ label.toList then wildcard
  else name

end LabelStyle

/-- The style of a leaf; excluded sets have none. -/
def Atom.style? : Atom → Option LabelStyle
  | .literal _ => some .literal
  | .range _ _ => some .range
  | .charSet _ => some .charSet
  | .reference _ _ => some .name
  | .wildcard => some .wildcard
  | .excluding _ | .excludingAny _ => none

def Atom.literals : Atom → List String
  | .literal text => [text]
  | .range first last => [first, last]
  | .charSet _ | .reference _ _ | .excluding _ | .excludingAny _ | .wildcard => []

/-- A leaf as it is scanned, with no mark of a range in its literals. -/
structure Atom.Distinct (leaf : Atom) : Prop where
  shaped : ∀ token ∈ leaf.tokens, token.Shaped
  unmarked : ∀ text ∈ leaf.literals, ¬Label.rangeMark <:+: text.toList

open Label

theorem Atom.Distinct.literal_unmarked {leaf : Atom} (distinct : leaf.Distinct) {text : String}
    (member : text ∈ leaf.literals) (spelled : .literal text ∈ leaf.tokens) :
    ¬rangeMark <:+: (escapeLiteral text).toList :=
  rangeMark_escapeLiteral (distinct.shaped _ spelled) (distinct.unmarked text member)

/-- The style of a leaf is seen in its label. -/
theorem Atom.style_of_leafLabel? {kind : RuleKind} {leaf : Atom} (distinct : leaf.Distinct)
    {label : String} (shown : leaf.leafLabel? kind = some label) :
    leaf.style? = some (.ofLabel label) := by
  cases leaf with
  | literal text =>
      cases shown
      have unmarked := distinct.literal_unmarked
        (List.mem_singleton_self text) (List.mem_singleton_self _)
      have begins := escapeLiteral_head? text ""
      rw [String.append_empty] at begins
      rw [LabelStyle.ofLabel, if_pos begins, if_neg unmarked]
      rfl
  | range first last =>
      cases shown
      have begins := escapeLiteral_head? first (" .. " ++ escapeLiteral last)
      rw [← String.append_assoc] at begins
      have marked :
          rangeMark <:+: (escapeLiteral first ++ " .. " ++ escapeLiteral last).toList := by
        rw [String.toList_append, String.toList_append]
        exact ⟨_, _, rfl⟩
      rw [LabelStyle.ofLabel, if_pos begins, if_pos marked]
      rfl
  | charSet text =>
      cases shown
      obtain ⟨body, bracket, -⟩ := distinct.shaped _ (List.mem_singleton_self _)
      have begins : (escape text).toList.head? = some '[' := by
        rw [escape, String.toList_ofList, bracket, escapeChars, guardCodePoints_plain (by decide)]
        rfl
      rw [LabelStyle.ofLabel, begins]
      rfl
  | reference name arguments =>
      have isWord : IsWord name.value :=
        isWord_of_shaped (distinct.shaped _ (List.mem_cons_self ..))
      rw [leafLabel?, escape_of_isWord isWord] at shown
      cases shown
      have other (c : Char) (apart : Scan.isWordCharacter c = false) :
          name.value.toList.head? ≠ some c := fun begins =>
        isWord.not_mem apart (List.mem_of_mem_head? begins)
      rw [LabelStyle.ofLabel, if_neg (other _ (by decide)), if_neg (other _ (by decide)),
        if_neg (isWord.not_mem (by decide))]
      rfl
  | wildcard =>
      cases kind with
      | lexer => cases shown; decide
      | parser => cases shown; decide
  | excluding operand => cases shown
  | excludingAny operands => cases shown

/-! ## Outlines -/

mutual

/-- An atom without the arguments and places of its references. -/
def Atom.outline : Atom → Atom
  | .literal text => .literal text
  | .range first last => .range first last
  | .charSet text => .charSet text
  | .reference name _ => .reference ⟨name.value, .origin⟩ none
  | .excluding operand => .excluding operand.outline
  | .excludingAny operands => .excludingAny (atomOutlines operands)
  | .wildcard => .wildcard

def atomOutlines : List Atom → List Atom
  | [] => []
  | atom :: rest => atom.outline :: atomOutlines rest

end

/-- A repetition without its greed. -/
def Suffix.outline (suffix : Suffix) : Suffix := ⟨suffix.repeats, true⟩

mutual

/-- Of an action, it only stays whether it is a predicate. -/
def Content.outline : Content → Content
  | .atom atom => .atom atom.outline
  | .group block => .group (blockOutline block)
  | .action _ predicate => .action "" predicate

def Element.outline : Element → Element
  | ⟨content, _, suffix⟩ => ⟨content.outline, none, suffix.map Suffix.outline⟩

def elementOutlines : List Element → List Element
  | [] => []
  | element :: rest => element.outline :: elementOutlines rest

def Alternative.outline : Alternative → Alternative
  | ⟨elements, _, _, _⟩ => ⟨elementOutlines elements, [], none, []⟩

/-- A block without labels, options, commands, arguments, greed, code and places. -/
def blockOutline : List Alternative → List Alternative
  | [] => []
  | alternative :: rest => alternative.outline :: blockOutline rest

end

section Drawn

variable (kind : RuleKind)

mutual

theorem Atom.outline_diagram : ∀ (atom : Atom), atom.outline.diagram kind = atom.diagram kind
  | .excluding operand => by
      rw [Atom.outline, Atom.diagram, Atom.diagram, Atom.outline_diagram operand]
  | .excludingAny operands => by
      rw [Atom.outline, Atom.diagram, Atom.diagram, atomOutlines_diagrams operands]
  | .literal _ | .range _ _ | .charSet _ | .reference _ _ | .wildcard => rfl

theorem atomOutlines_diagrams :
    ∀ (atoms : List Atom), atomDiagrams kind (atomOutlines atoms) = atomDiagrams kind atoms
  | [] => rfl
  | atom :: rest => by
      rw [atomOutlines, atomDiagrams, atomDiagrams, Atom.outline_diagram atom,
        atomOutlines_diagrams rest]

end

theorem Suffix.outline_diagram (suffix : Option Suffix) (item : Diagram) :
    Suffix.diagram (suffix.map Suffix.outline) item = Suffix.diagram suffix item := by
  cases suffix <;> rfl

mutual

theorem Content.outline_diagram :
    ∀ (content : Content), content.outline.diagram kind = content.diagram kind
  | .atom atom => Atom.outline_diagram kind atom
  | .group block => by
      rw [Content.outline, Content.diagram, Content.diagram, blockOutline_diagrams block]
  | .action _ _ => rfl

theorem Element.outline_diagram :
    ∀ (element : Element), element.outline.diagram kind = element.diagram kind
  | ⟨content, _, suffix⟩ => by
      rw [Element.outline, Element.diagram, Element.diagram, Suffix.outline_diagram,
        Content.outline_diagram content]

theorem elementOutlines_diagrams : ∀ (elements : List Element),
    elementDiagrams kind (elementOutlines elements) = elementDiagrams kind elements
  | [] => rfl
  | element :: rest => by
      rw [elementOutlines, elementDiagrams, elementDiagrams, Element.outline_diagram element,
        elementOutlines_diagrams rest]

theorem Alternative.outline_diagram :
    ∀ (alternative : Alternative), alternative.outline.diagram kind = alternative.diagram kind
  | ⟨[], _, _, _⟩ => rfl
  | ⟨element :: rest, _, _, _⟩ => by
      rw [Alternative.outline, elementOutlines, Alternative.diagram, Alternative.diagram,
        Element.outline_diagram element, elementOutlines_diagrams rest]

theorem blockOutline_diagrams : ∀ (block : List Alternative),
    alternativeDiagrams kind (blockOutline block) = alternativeDiagrams kind block
  | [] => rfl
  | alternative :: rest => by
      rw [blockOutline, alternativeDiagrams, alternativeDiagrams,
        Alternative.outline_diagram alternative, blockOutline_diagrams rest]

end

/-! ## Outlines are known from diagrams -/

variable {kind}

/-- All leaves among the atoms can be told from each other. -/
def AllDistinct (leaves : List Atom) : Prop := ∀ leaf ∈ leaves, leaf.Distinct

theorem allDistinct_append {first second : List Atom} :
    AllDistinct (first ++ second) ↔ AllDistinct first ∧ AllDistinct second :=
  List.forall_mem_append

/-- A leaf is known from its label, but for arguments and places. -/
theorem Atom.leafLabel?_inj {leaf other : Atom} (distinct : leaf.Distinct)
    (distinctToo : other.Distinct) {label : String} (shown : leaf.leafLabel? kind = some label)
    (shownToo : other.leafLabel? kind = some label) : leaf.outline = other.outline := by
  have styles : leaf.style? = other.style? :=
    (style_of_leafLabel? distinct shown).trans (style_of_leafLabel? distinctToo shownToo).symm
  have labels : leaf.leafLabel? kind = other.leafLabel? kind := shown.trans shownToo.symm
  cases leaf with
  | literal text =>
      cases other with
      | literal textToo =>
          have texts := escapeLiteral_inj (distinct.shaped _ (List.mem_singleton_self _))
            (distinctToo.shaped _ (List.mem_singleton_self _)) (Option.some.inj labels)
          rw [texts]
      | _ => cases styles
  | range first last =>
      cases other with
      | range firstToo lastToo =>
          have firstMember (first last : String) :
              Token.literal first ∈ (Atom.range first last).tokens := List.mem_cons_self ..
          have lastMember (first last : String) :
              Token.literal last ∈ (Atom.range first last).tokens :=
            List.mem_cons_of_mem _ (List.mem_cons_of_mem _ (List.mem_singleton_self _))
          obtain ⟨firsts, lasts⟩ := range_inj
            (distinct.literal_unmarked (List.mem_cons_self ..) (firstMember first last))
            (distinctToo.literal_unmarked (List.mem_cons_self ..) (firstMember firstToo lastToo))
            (Option.some.inj labels)
          rw [escapeLiteral_inj (distinct.shaped _ (firstMember ..))
              (distinctToo.shaped _ (firstMember ..)) firsts,
            escapeLiteral_inj (distinct.shaped _ (lastMember ..))
              (distinctToo.shaped _ (lastMember ..)) lasts]
      | _ => cases styles
  | charSet text =>
      cases other with
      | charSet textToo => rw [escape_inj (Option.some.inj labels)]
      | _ => cases styles
  | reference name arguments =>
      cases other with
      | reference nameToo argumentsToo =>
          rw [Atom.outline, Atom.outline, escape_inj (Option.some.inj labels)]
      | _ => cases styles
  | wildcard =>
      cases other with
      | wildcard => rfl
      | _ => cases styles
  | excluding operand => cases shown
  | excludingAny operands => cases shown

/-- A leaf is drawn as its label. -/
theorem Atom.diagram_label? (atom : Atom) : (atom.diagram kind).label? = atom.leafLabel? kind := by
  cases atom <;> rfl

theorem Atom.leaves_of_leafLabel? {leaf : Atom} {label : String}
    (shown : leaf.leafLabel? kind = some label) : leaf.leaves = [leaf] := by
  cases leaf with
  | excluding _ | excludingAny _ => cases shown
  | _ => rfl

theorem Atom.outline_inj_leaf {leaf other : Atom} {label : String}
    (shown : leaf.leafLabel? kind = some label) (distinct : AllDistinct leaf.leaves)
    (distinctToo : AllDistinct other.leaves) (same : leaf.diagram kind = other.diagram kind) :
    leaf.outline = other.outline := by
  have shownToo : other.leafLabel? kind = some label := by
    rw [← diagram_label?, ← same, diagram_label?, shown]
  rw [leaves_of_leafLabel? shown] at distinct
  rw [leaves_of_leafLabel? shownToo] at distinctToo
  exact leafLabel?_inj (distinct _ (List.mem_singleton_self _))
    (distinctToo _ (List.mem_singleton_self _)) shown shownToo

/-- Atoms are neither choices nor remarks. -/
theorem Atom.diagram_kindName (kind : RuleKind) (atom : Atom) :
    (atom.diagram kind).kindName ∈ ["Sequence", "Terminal", "NonTerminal"] := by
  cases atom with
  | wildcard => cases kind <;> decide
  | _ => simp only [Atom.diagram, Diagram.kindName]; decide

theorem Atom.diagram_ne_choice (atom : Atom) (selected : Nat) (branches : List Diagram) :
    atom.diagram kind ≠ .choice selected branches := by
  intro same
  have drawn := atom.diagram_kindName kind
  rw [same, Diagram.kindName] at drawn
  exact absurd drawn (by decide)

theorem Atom.diagram_ne_comment (atom : Atom) (label : String) :
    atom.diagram kind ≠ .comment label := by
  intro same
  have drawn := atom.diagram_kindName kind
  rw [same, Diagram.kindName] at drawn
  exact absurd drawn (by decide)

/-- Behind the remark of an excluded set there is one item. -/
theorem exclusion_inj {item other : Diagram}
    (same : Diagram.sequence [.comment exclusionLabel, item] =
      .sequence [.comment exclusionLabel, other]) : item = other :=
  (List.cons.inj (List.cons.inj (Diagram.sequence.inj same)).2).1

mutual

theorem Atom.outline_inj : ∀ (first second : Atom), AllDistinct first.leaves →
    AllDistinct second.leaves → first.diagram kind = second.diagram kind →
    first.outline = second.outline
  | .excluding operand, other, distinct, distinctToo, same => by
      cases other with
      | excluding operandToo =>
          rw [Atom.outline, Atom.outline,
            Atom.outline_inj operand operandToo distinct distinctToo (exclusion_inj same)]
      | excludingAny operands =>
          exact absurd (exclusion_inj same) (operand.diagram_ne_choice 0 _)
      | wildcard => cases kind <;> cases same
      | _ => cases same
  | .excludingAny operands, other, distinct, distinctToo, same => by
      cases other with
      | excluding operand =>
          exact absurd (exclusion_inj same).symm (operand.diagram_ne_choice 0 _)
      | excludingAny operandsToo =>
          have choices := (Diagram.choice.inj (exclusion_inj same)).2
          rw [Atom.outline, Atom.outline,
            atomOutlines_inj operands operandsToo distinct distinctToo choices]
      | wildcard => cases kind <;> cases same
      | _ => cases same
  | .literal _, _, distinct, distinctToo, same | .range _ _, _, distinct, distinctToo, same
  | .charSet _, _, distinct, distinctToo, same | .reference _ _, _, distinct, distinctToo, same =>
      Atom.outline_inj_leaf rfl distinct distinctToo same
  | .wildcard, other, distinct, distinctToo, same => by
      cases kind with
      | lexer => exact Atom.outline_inj_leaf rfl distinct distinctToo same
      | parser => exact Atom.outline_inj_leaf rfl distinct distinctToo same

theorem atomOutlines_inj : ∀ (first second : List Atom), AllDistinct (atomLeaves first) →
    AllDistinct (atomLeaves second) → atomDiagrams kind first = atomDiagrams kind second →
    atomOutlines first = atomOutlines second
  | [], [], _, _, _ => rfl
  | [], _ :: _, _, _, same | _ :: _, [], _, _, same => by cases same
  | atom :: rest, atomToo :: others, distinct, distinctToo, same => by
      obtain ⟨here, later⟩ := allDistinct_append.mp distinct
      obtain ⟨hereToo, laterToo⟩ := allDistinct_append.mp distinctToo
      obtain ⟨heads, tails⟩ := List.cons.inj same
      rw [atomOutlines, atomOutlines, Atom.outline_inj atom atomToo here hereToo heads,
        atomOutlines_inj rest others later laterToo tails]

end

/-- The repetition that a diagram is drawn for, and the item that it repeats. -/
def Diagram.unrepeated : Diagram → Option Repeat × Diagram
  | .optional item => (some .optional, item)
  | .zeroOrMore item => (some .zeroOrMore, item)
  | .oneOrMore item => (some .oneOrMore, item)
  | diagram => (none, diagram)

theorem Content.unrepeated_diagram (content : Content) :
    (content.diagram kind).unrepeated = (none, content.diagram kind) := by
  cases content with
  | atom atom =>
      cases atom with
      | wildcard => cases kind <;> rfl
      | _ => rfl
  | group block => rfl
  | action code predicate => rfl

theorem Suffix.unrepeated_diagram (suffix : Option Suffix) (content : Content) :
    (Suffix.diagram suffix (content.diagram kind)).unrepeated =
      (suffix.map Suffix.repeats, content.diagram kind) := by
  cases suffix with
  | none => exact content.unrepeated_diagram
  | some suffix =>
      obtain ⟨repeats, greedy⟩ := suffix
      cases repeats <;> rfl

theorem Suffix.outline_of_repeats {suffix other : Option Suffix}
    (same : suffix.map Suffix.repeats = other.map Suffix.repeats) :
    suffix.map Suffix.outline = other.map Suffix.outline := by
  have known (suffix : Option Suffix) : suffix.map Suffix.outline =
      (suffix.map Suffix.repeats).map fun repeats => ⟨repeats, true⟩ := by
    cases suffix <;> rfl
  rw [known, known, same]

theorem remark_inj {predicate other : Bool}
    (same : (if predicate then predicateLabel else epsilonLabel) =
      if other then predicateLabel else epsilonLabel) : predicate = other := by
  revert same
  cases predicate <;> cases other <;> decide

mutual

theorem Content.outline_inj : ∀ (first second : Content), AllDistinct first.leaves →
    AllDistinct second.leaves → first.diagram kind = second.diagram kind →
    first.outline = second.outline
  | .atom atom, other, distinct, distinctToo, same => by
      cases other with
      | atom atomToo =>
          rw [Content.outline, Content.outline,
            Atom.outline_inj atom atomToo distinct distinctToo same]
      | group block => exact absurd same (atom.diagram_ne_choice 0 _)
      | action code predicate => exact absurd same (atom.diagram_ne_comment _)
  | .group block, other, distinct, distinctToo, same => by
      cases other with
      | atom atom => exact absurd same.symm (atom.diagram_ne_choice 0 _)
      | group blockToo =>
          rw [Content.outline, Content.outline,
            blockOutline_inj block blockToo distinct distinctToo (Diagram.choice.inj same).2]
      | action code predicate => cases same
  | .action code predicate, other, _, _, same => by
      cases other with
      | atom atom => exact absurd same.symm (atom.diagram_ne_comment _)
      | group block => cases same
      | action codeToo predicateToo =>
          rw [Content.outline, Content.outline, remark_inj (Diagram.comment.inj same)]

theorem Element.outline_inj : ∀ (first second : Element), AllDistinct first.leaves →
    AllDistinct second.leaves → first.diagram kind = second.diagram kind →
    first.outline = second.outline
  | ⟨content, _, suffix⟩, ⟨contentToo, _, suffixToo⟩, distinct, distinctToo, same => by
      have parts := congrArg Diagram.unrepeated same
      rw [Element.diagram, Element.diagram, Suffix.unrepeated_diagram,
        Suffix.unrepeated_diagram] at parts
      obtain ⟨repeats, items⟩ := Prod.mk.inj parts
      rw [Element.outline, Element.outline, Suffix.outline_of_repeats repeats,
        Content.outline_inj content contentToo distinct distinctToo items]

theorem elementOutlines_inj : ∀ (first second : List Element), AllDistinct (elementLeaves first) →
    AllDistinct (elementLeaves second) →
    elementDiagrams kind first = elementDiagrams kind second →
    elementOutlines first = elementOutlines second
  | [], [], _, _, _ => rfl
  | [], _ :: _, _, _, same | _ :: _, [], _, _, same => by cases same
  | element :: rest, elementToo :: others, distinct, distinctToo, same => by
      obtain ⟨here, later⟩ := allDistinct_append.mp distinct
      obtain ⟨hereToo, laterToo⟩ := allDistinct_append.mp distinctToo
      obtain ⟨heads, tails⟩ := List.cons.inj same
      rw [elementOutlines, elementOutlines,
        Element.outline_inj element elementToo here hereToo heads,
        elementOutlines_inj rest others later laterToo tails]

theorem Alternative.outline_inj : ∀ (first second : Alternative), AllDistinct first.leaves →
    AllDistinct second.leaves → first.diagram kind = second.diagram kind →
    first.outline = second.outline
  | ⟨[], _, _, _⟩, ⟨[], _, _, _⟩, _, _, _ => rfl
  | ⟨[], _, _, _⟩, ⟨_ :: _, _, _, _⟩, _, _, same
  | ⟨_ :: _, _, _, _⟩, ⟨[], _, _, _⟩, _, _, same => by cases same
  | ⟨element :: rest, _, _, _⟩, ⟨elementToo :: others, _, _, _⟩, distinct, distinctToo, same => by
      have items : elementDiagrams kind (element :: rest) =
          elementDiagrams kind (elementToo :: others) := Diagram.sequence.inj same
      rw [Alternative.outline, Alternative.outline,
        elementOutlines_inj (element :: rest) (elementToo :: others) distinct distinctToo items]

theorem blockOutline_inj : ∀ (first second : List Alternative), AllDistinct (blockLeaves first) →
    AllDistinct (blockLeaves second) →
    alternativeDiagrams kind first = alternativeDiagrams kind second →
    blockOutline first = blockOutline second
  | [], [], _, _, _ => rfl
  | [], _ :: _, _, _, same | _ :: _, [], _, _, same => by cases same
  | alternative :: rest, alternativeToo :: others, distinct, distinctToo, same => by
      obtain ⟨here, later⟩ := allDistinct_append.mp distinct
      obtain ⟨hereToo, laterToo⟩ := allDistinct_append.mp distinctToo
      obtain ⟨heads, tails⟩ := List.cons.inj same
      rw [blockOutline, blockOutline,
        Alternative.outline_inj alternative alternativeToo here hereToo heads,
        blockOutline_inj rest others later laterToo tails]

end

end Drawn

/-- No literal of the rule holds the mark of a range. -/
def Rule.Unmarked (rule : Rule) : Prop :=
  ∀ leaf ∈ blockLeaves rule.body, ∀ text ∈ leaf.literals, ¬rangeMark <:+: text.toList

instance (rule : Rule) : Decidable rule.Unmarked :=
  inferInstanceAs (Decidable (∀ leaf ∈ blockLeaves rule.body, ∀ text ∈ leaf.literals,
    ¬rangeMark <:+: text.toList))

namespace Grammar

theorem leaves_distinct {source : String} {found : Grammar} (parsed : parse source = .ok found)
    {rule : Rule} (listed : rule ∈ found.rules) (unmarked : rule.Unmarked) :
    AllDistinct (blockLeaves rule.body) := fun leaf inBody =>
  ⟨leaf_shaped parsed listed inBody, unmarked leaf inBody⟩

/--
Two rules of one kind are drawn alike if and only if their bodies have one outline: labels,
options, commands, arguments, greed, code and places are not drawn, and everything else is.
-/
theorem diagram_eq_iff {source sourceToo : String} {found foundToo : Grammar}
    (parsed : parse source = .ok found) (parsedToo : parse sourceToo = .ok foundToo)
    {rule ruleToo : Rule} (listed : rule ∈ found.rules) (listedToo : ruleToo ∈ foundToo.rules)
    (kinds : rule.kind = ruleToo.kind) (unmarked : rule.Unmarked)
    (unmarkedToo : ruleToo.Unmarked) :
    rule.diagram = ruleToo.diagram ↔ blockOutline rule.body = blockOutline ruleToo.body := by
  have drawn (rule : Rule) :
      Diagram.choice 0 (alternativeDiagrams rule.kind (blockOutline rule.body)) = rule.diagram := by
    rw [blockOutline_diagrams]
    rfl
  constructor
  · intro same
    have branches := (Diagram.choice.inj same).2
    rw [← kinds] at branches
    exact blockOutline_inj rule.body ruleToo.body (leaves_distinct parsed listed unmarked)
      (leaves_distinct parsedToo listedToo unmarkedToo) branches
  · intro same
    rw [← drawn rule, ← drawn ruleToo, kinds, same]

theorem diagram_eq_iff_labelled : ∃ found foundToo,
    parse "grammar g; a : x = b[1] ('c' .. 'd' | ~[e])*? {f} # h | . ;" = .ok found ∧
      parse "grammar g; z : b ('c' .. 'd' | ~[e])* {} | . ; y : b 'c' 'd' ;" = .ok foundToo ∧
      ∀ rule ∈ found.rules, ∀ ruleToo ∈ foundToo.rules,
        (rule.diagram = ruleToo.diagram ↔
          blockOutline rule.body = blockOutline ruleToo.body) := by
  have known (source : String) (listed : source ∈
      ["grammar g; a : x = b[1] ('c' .. 'd' | ~[e])*? {f} # h | . ;",
        "grammar g; z : b ('c' .. 'd' | ~[e])* {} | . ; y : b 'c' 'd' ;"]) :
      ∃ found, parse source = .ok found ∧
        ∀ rule ∈ found.rules, rule.kind = .parser ∧ rule.Unmarked := by
    have checked : (match parse source with
        | .ok found => decide (∀ rule ∈ found.rules, rule.kind = .parser ∧ rule.Unmarked)
        | .error _ => false) = true := by
      revert source
      decide +kernel
    cases parsed : parse source with
    | error rejection => rw [parsed] at checked; cases checked
    | ok found =>
        rw [parsed] at checked
        exact ⟨found, rfl, of_decide_eq_true checked⟩
  obtain ⟨found, parsed, all⟩ := known _ (List.mem_cons_self ..)
  obtain ⟨foundToo, parsedToo, allToo⟩ :=
    known _ (List.mem_cons_of_mem _ (List.mem_singleton_self _))
  refine ⟨found, foundToo, parsed, parsedToo, fun rule listed ruleToo listedToo => ?_⟩
  apply diagram_eq_iff parsed parsedToo listed listedToo
  · rw [(all rule listed).1, (allToo ruleToo listedToo).1]
  · exact (all rule listed).2
  · exact (allToo ruleToo listedToo).2

end Grammar

end Railroad
