import Railroad.Proofs.Grammar.Recognition

/-!
# Readers of atoms

The language of bodies can be cut into elements in more than one way: brackets behind a name are
its arguments or a character set of their own, and options behind an excluded set belong to the
set or to the exclusion.  The readers settle this greedily, so a reader of elements need not stop
where the elements of a given derivation do.  What is shown is that whatever it leaves of a word
continues as elements.
-/

namespace Railroad

/-- Elements behind an atom, after the suffix that the atom may have. -/
def Form.afterAtom : Form := sequence [optional suffix, many (notion .element)]

/-- What may follow the name of a reference, arguments aside. -/
def Form.afterName : Form := sequence [optional (notion .elementOptions), afterAtom]

/-- An element of an excluded set, its options left aside. -/
def Form.setCore : Form := choice literalOrRange [charSet, name]

/-- Terminals by which the elements of an alternative may go on. -/
def Form.elementMore : List Terminal :=
  [.name, .literal, .charSet, .mark .tilde, .mark .dot, .mark .openParen, .action, .mark .question,
    .mark .star, .mark .plus, .mark .less, .mark .doubleDot, .mark .equals, .mark .plusEquals]

namespace Derives

variable {word : List Terminal}

theorem afterAtom_iff : Derives .afterAtom word ↔
    ∃ suffix elements, word = suffix ++ elements ∧ Derives (.optional .suffix) suffix ∧
      Derives (.many (.notion .element)) elements :=
  sequence_pair_iff

/-- A character set in front of elements is one of the elements. -/
theorem charSet_afterAtom {options after : List Terminal}
    (optionsDerive : Derives (.optional (.notion .elementOptions)) options)
    (afterDerives : Derives .afterAtom after) :
    Derives .afterAtom (.charSet :: (options ++ after)) := by
  obtain ⟨suffix, elements, rfl, suffixDerives, elementsDerive⟩ := (afterAtom_iff).mp afterDerives
  have atom : Derives (.notion .atom) (.charSet :: options) :=
    .notion (sequence_pair (.right (.left (.terminal .charSet))) optionsDerive)
  have content : Derives (.sequence [.choice (.notion .atom) [.notion .block], .optional .suffix])
      (.charSet :: options ++ suffix) := sequence_pair (.left atom) suffixDerives
  have label : Derives (.optional .elementLabel) [] := .absent
  have element : Derives (.notion .element) (.charSet :: options ++ suffix) :=
    .notion (.left (label.sequence_cons content))
  have elements := again element elementsDerive
  rw [List.append_assoc, List.cons_append] at elements
  exact (afterAtom_iff).mpr ⟨[], _, rfl, .absent, elements⟩

theorem element_charSet (derives : Derives (.notion .element) (.charSet :: word)) :
    ∃ options suffix, word = options ++ suffix ∧
      Derives (.optional (.notion .elementOptions)) options ∧ Derives (.optional .suffix) suffix := by
  rcases either_iff.mp (notion_iff.mp derives) with labeled | action
  · obtain ⟨label, body, split, labelDerives, bodyDerives⟩ := sequence_cons_iff.mp labeled
    obtain ⟨rfl, rfl⟩ := labelDerives.skip split (by decide)
    obtain ⟨content, suffix, split, contentDerives, suffixDerives⟩ := sequence_pair_iff.mp bodyDerives
    obtain ⟨others, rfl, rfl⟩ := contentDerives.enter split rfl
    rcases either_iff.mp contentDerives with atom | block
    · obtain ⟨core, options, split, coreDerives, optionsDerive⟩ :=
        sequence_pair_iff.mp (notion_iff.mp atom)
      obtain ⟨rest, rfl, rfl⟩ := coreDerives.enter split rfl
      have single : rest = [] := by
        rcases either_iff.mp coreDerives with literal | coreDerives
        · exact absurd literal.head_mem_starts (by decide)
        rcases either_iff.mp coreDerives with set | coreDerives
        · exact (List.cons.inj (terminal_iff.mp set)).2
        · exact absurd coreDerives.head_mem_starts (by decide)
      subst single
      exact ⟨options, suffix, rfl, optionsDerive, suffixDerives⟩
    · exact absurd block.head_mem_starts (by decide)
  · exact absurd action.head_mem_starts (by decide)

/-- A character set in front of elements may have options, and a suffix behind them. -/
theorem afterAtom_charSet (derives : Derives .afterAtom (.charSet :: word)) :
    ∃ options after, word = options ++ after ∧
      Derives (.optional (.notion .elementOptions)) options ∧ Derives .afterAtom after := by
  obtain ⟨suffix, elements, split, suffixDerives, elementsDerive⟩ := (afterAtom_iff).mp derives
  obtain ⟨rfl, rfl⟩ := suffixDerives.skip split (by decide)
  rcases many_iff.mp elementsDerive with none | ⟨front, back, split, element, others⟩
  · cases none
  obtain ⟨rest, rfl, rfl⟩ := element.enter split rfl
  obtain ⟨options, suffix, rfl, optionsDerive, suffixDerives⟩ := element_charSet element
  exact ⟨options, suffix ++ back, List.append_assoc .., optionsDerive,
    (afterAtom_iff).mpr ⟨suffix, back, rfl, suffixDerives, others⟩⟩

/-- What follows the name of a reference can be read with brackets taken off, or with them. -/
theorem afterName {arguments options after : List Terminal}
    (argumentsDerive : Derives (.optional .charSet) arguments)
    (optionsDerive : Derives (.optional (.notion .elementOptions)) options)
    (afterDerives : Derives .afterAtom after) (split : word = arguments ++ (options ++ after)) :
    Derives .afterName word ∧ ∀ others, word = .charSet :: others → Derives .afterName others := by
  have behind : Derives .afterName (options ++ after) := optionsDerive.sequence_pair afterDerives
  rcases optional_iff.mp argumentsDerive with rfl | bracket
  · rw [List.nil_append] at split
    subst split
    refine ⟨behind, fun others starts => ?_⟩
    obtain ⟨rfl, rfl⟩ := optionsDerive.skip starts.symm (by decide)
    obtain ⟨options, rest, rfl, optionsDerive, restDerives⟩ := afterAtom_charSet afterDerives
    exact optionsDerive.sequence_pair restDerives
  · rw [terminal_iff.mp bracket, List.singleton_append] at split
    subst split
    have noOptions : Derives (.optional (.notion .elementOptions)) [] := .absent
    refine ⟨noOptions.sequence_pair (charSet_afterAtom optionsDerive afterDerives), ?_⟩
    intro others starts
    exact (List.cons.inj starts).2 ▸ behind

end Derives

namespace Form

/-- An excluded set behind which options are not its own. -/
def closedSet : Form := choice setBlock [sequence [setCore, notion .elementOptions]]

/-- Atoms other than references, with their options where the readers take them. -/
def exactAtom : Form :=
  choice (sequence [choice literalOrRange [charSet, mark .dot], optional (notion .elementOptions)])
    [sequence [sequence [mark .tilde, closedSet], optional (notion .elementOptions)],
      sequence [mark .tilde, setCore]]

end Form

namespace Derives

variable {word : List Terminal}

theorem exclusion_iff : Derives .exclusion word ↔
    Derives (.sequence [.mark .tilde, .closedSet]) word ∨
      Derives (.sequence [.mark .tilde, .setCore]) word := by
  simp only [Form.exclusion, sequence_pair_iff]
  constructor
  · rintro ⟨sign, set, rfl, signDerives, setDerives⟩
    rcases either_iff.mp setDerives with item | list
    · obtain ⟨core, options, rfl, coreDerives, optionsDerive⟩ :=
        sequence_pair_iff.mp (notion_iff.mp item)
      rcases optional_iff.mp optionsDerive with rfl | optionsDerive
      · rw [List.append_nil]
        exact Or.inr ⟨sign, core, rfl, signDerives, coreDerives⟩
      · exact Or.inl ⟨sign, _, rfl, signDerives, .right (coreDerives.sequence_pair optionsDerive)⟩
    · exact Or.inl ⟨sign, set, rfl, signDerives, .left list⟩
  · rintro (⟨sign, set, rfl, signDerives, setDerives⟩ | ⟨sign, core, rfl, signDerives, coreDerives⟩)
    · refine ⟨sign, set, rfl, signDerives, ?_⟩
      rcases either_iff.mp setDerives with list | item
      · exact .right list
      · obtain ⟨core, options, rfl, coreDerives, optionsDerive⟩ := sequence_pair_iff.mp item
        exact .left (.notion (coreDerives.sequence_pair (.present optionsDerive)))
    · have item := coreDerives.sequence_pair (.absent : Derives (.optional (.notion .elementOptions)) [])
      rw [List.append_nil] at item
      exact ⟨sign, core, rfl, signDerives, .left (.notion item)⟩

/-- Options behind an excluded item may as well be those of the item. -/
theorem exclusion_options {set options : List Terminal} (setDerives : Derives .exclusion set)
    (optionsDerive : Derives (.optional (.notion .elementOptions)) options) :
    Derives .exactAtom (set ++ options) := by
  rcases (exclusion_iff).mp setDerives with closed | core
  · exact .right (.left (closed.sequence_pair optionsDerive))
  rcases optional_iff.mp optionsDerive with rfl | optionsDerive
  · rw [List.append_nil]
    exact .right (.right core)
  · obtain ⟨sign, item, rfl, signDerives, itemDerives⟩ := sequence_pair_iff.mp core
    have closed : Derives (.sequence [.mark .tilde, .closedSet]) (sign ++ (item ++ options)) :=
      signDerives.sequence_pair (.right (itemDerives.sequence_pair optionsDerive))
    have atom := closed.sequence_pair (.absent : Derives (.optional (.notion .elementOptions)) [])
    rw [List.append_nil, ← List.append_assoc] at atom
    exact .right (.left atom)

/-- An atom is a reference with or without options, or one that is read as it stands. -/
theorem atom_cases (derives : Derives (.notion .atom) word) :
    Derives (.sequence [.reference, .optional (.notion .elementOptions)]) word ∨
      Derives .exactAtom word := by
  obtain ⟨core, options, rfl, coreDerives, optionsDerive⟩ :=
    sequence_pair_iff.mp (notion_iff.mp derives)
  rcases either_iff.mp coreDerives with literal | coreDerives
  · exact Or.inr (.left (Derives.left literal |>.sequence_pair optionsDerive))
  rcases either_iff.mp coreDerives with set | coreDerives
  · exact Or.inr (.left (Derives.right (.left set) |>.sequence_pair optionsDerive))
  rcases either_iff.mp coreDerives with named | coreDerives
  · exact Or.inl (named.sequence_pair optionsDerive)
  rcases either_iff.mp coreDerives with excluded | dot
  · exact Or.inr (exclusion_options excluded optionsDerive)
  · exact Or.inr (.left (Derives.right (.right dot) |>.sequence_pair optionsDerive))

end Derives

namespace Parse

open Reader

variable {bound : Nat}

theorem reference_sound : Sound reference .reference := by
  refine (identifier_decides).sound.andThen fun name => ?_
  split
  · exact (bracketed_decides).sound.optional.andThen fun _ => .succeed _
  · refine (Sound.succeed _).congr fun word none => ?_
    rw [Derives.empty_iff.mp none]
    exact Derives.sequence_singleton_iff.mpr .absent

theorem reference_misses : Misses reference .reference := (identifier_decides).misses.andThen _

/-- An atom without the options behind it. -/
def bareAtom : Reader Atom :=
  literalOrRange.orElse (charSet.orElse (reference.orElse (exclusion.orElse wildcard)))

theorem bareAtom_sound :
    Sound bareAtom (.choice .literalOrRange [.charSet, .reference, .exclusion, .mark .dot]) :=
  (literalOrRange_decides).sound.orElse ((charSet_decides).sound.orElse
    ((reference_sound).orElse ((exclusion_decides).sound.orElse (wildcard_decides).sound)))

theorem bareAtom_misses :
    Misses bareAtom (.choice .literalOrRange [.charSet, .reference, .exclusion, .mark .dot]) :=
  (literalOrRange_decides).misses.orElse ((charSet_decides).misses.orElse
    ((reference_misses).orElse ((exclusion_decides).misses.orElse (wildcard_decides).misses)))

/-- The readers of bare atoms are told apart by their first terminals. -/
theorem bareAtom_completes : Completes bound bareAtom
    (.choice .literalOrRange [.charSet, .mark .dot]) [.mark .doubleDot] := by
  have literal : Completes bound bareAtom .literalOrRange [.mark .doubleDot] :=
    ((literalOrRange_decides).complete bound).orElse_left _
  have set : Completes bound bareAtom .charSet [] :=
    .orElse_right (literalOrRange_decides).misses (by decide)
      (((charSet_decides).complete bound).orElse_left _)
  have dot : Completes bound bareAtom (.mark .dot) [] :=
    .orElse_right (literalOrRange_decides).misses (by decide)
      (.orElse_right (charSet_decides).misses (by decide)
        (.orElse_right reference_misses (by decide)
          (.orElse_right (exclusion_decides).misses (by decide) ((wildcard_decides).complete bound))))
  exact literal.either (set.either dot)

theorem bareAtom_exclusion {form : Form} {more : List Terminal}
    (completes : Completes bound exclusion form more) (firm : form.nullable = false)
    (starts : form.starts = [.mark .tilde]) : Completes bound bareAtom form more := by
  have apart {barred : List Terminal} (free : .mark .tilde ∉ barred) : form.Apart barred := by
    refine ⟨firm, fun terminal member => ?_⟩
    rw [starts, List.mem_singleton] at member
    exact member ▸ free
  exact .orElse_right (literalOrRange_decides).misses (apart (by decide))
    (.orElse_right (charSet_decides).misses (apart (by decide))
      (.orElse_right reference_misses (apart (by decide)) (completes.orElse_left _)))

theorem setElement_closed : Completes bound setElement
    (.sequence [.setCore, .notion .elementOptions]) [] :=
  ((setCore_decides).complete bound).andThen (by decide) fun _ =>
    ((elementOptions_decides).complete bound).present.andThen (.nil _ _) fun _ => .succeed _

theorem setElement_open : Completes bound setElement .setCore [.mark .doubleDot, .mark .less] := by
  have reads : Completes bound setElement (.both .setCore (.both .empty .empty))
      [.mark .doubleDot, .mark .less] :=
    ((setCore_decides).complete bound).andThen (by decide) fun _ =>
      (Completes.absent (elementOptions_decides).misses).andThen (by decide) fun _ => .succeed _
  exact reads.congr fun word derives =>
    List.append_nil word ▸ derives.both (.both .empty .empty)

/-- Behind a tilde, either an element or a parenthesized list is read. -/
theorem exclusion_of_set {form : Form} {more : List Terminal}
    (completes : Completes bound
      ((setElement.map Atom.excluding).orElse (setBlock.map Atom.excludingAny)) form more) :
    Completes bound exclusion (.sequence [.mark .tilde, form]) more :=
  ((mark_decides .tilde).complete bound).andThen (.nil _ _)
    fun _ => (completes.expecting _).committed.single

theorem exclusion_closed : Completes bound exclusion (.sequence [.mark .tilde, .closedSet]) [] := by
  have list : Completes bound
      ((setElement.map Atom.excluding).orElse (setBlock.map Atom.excludingAny)) .setBlock [] :=
    .orElse_right ((setElement_decides).misses.map _) (by decide) (((setBlock_decides).complete bound).map _)
  have item : Completes bound (setElement.map Atom.excluding)
      (.sequence [.setCore, .notion .elementOptions]) [] := (setElement_closed).map _
  exact exclusion_of_set (list.either (item.orElse_left _))

theorem exclusion_open : Completes bound exclusion (.sequence [.mark .tilde, .setCore])
    [.mark .doubleDot, .mark .less] :=
  exclusion_of_set (((setElement_open).map _).orElse_left _)

theorem atom_sound : Sound atom (.notion .atom) :=
  .notion ((bareAtom_sound).andThen fun _ =>
    (elementOptions_decides).sound.optional.andThen fun _ => .succeed _)

theorem atom_misses : Misses atom (.notion .atom) := .notion ((bareAtom_misses).andThen _)

theorem atom_exact : Completes bound atom .exactAtom [.mark .doubleDot, .mark .less] := by
  have options (value : Atom) :
      Completes bound (elementOptions.optional.andThen fun _ => Reader.succeed value)
        (.sequence [.optional (.notion .elementOptions)]) [.mark .doubleDot, .mark .less] :=
    ((elementOptions_decides).optional.complete bound).andThen (by decide) fun _ => .succeed _
  have plain : Completes bound atom
      (.sequence [.choice .literalOrRange [.charSet, .mark .dot], .optional (.notion .elementOptions)])
      [.mark .doubleDot, .mark .less] :=
    (bareAtom_completes).andThen (by decide) options
  have closed : Completes bound atom
      (.sequence [.sequence [.mark .tilde, .closedSet], .optional (.notion .elementOptions)])
      [.mark .doubleDot, .mark .less] :=
    (bareAtom_exclusion exclusion_closed rfl rfl).andThen (by decide) options
  have bare : Completes bound atom (.both (.sequence [.mark .tilde, .setCore]) (.both .empty .empty))
      [.mark .doubleDot, .mark .less] :=
    (bareAtom_exclusion exclusion_open rfl rfl).andThen (by decide) fun _ =>
      (Completes.absent (elementOptions_decides).misses).andThen (by decide) fun _ => .succeed _
  refine (plain.either (closed.either (bare.congr fun word derives => ?_))).widen (by decide)
  exact List.append_nil word ▸ derives.both (.both .empty .empty)

/-- Behind a name, brackets are either taken as its arguments or left. -/
theorem reference_name {lexeme : Lexeme} (named : lexeme.token.terminal = .name)
    (rest : List Lexeme) :
    (∃ value, reference (lexeme :: rest) = .done value rest) ∨
      ∃ value set later, rest = set :: later ∧ set.token.terminal = .charSet ∧
        reference (lexeme :: rest) = .done value later := by
  obtain ⟨name, identified⟩ := (identifier_decides).toRecognizes.take named rest
  cases kind : RuleKind.ofName name.value with
  | lexer =>
      refine Or.inl ⟨.reference name none, ?_⟩
      simp only [reference, bind_eq, Reader.andThen, identified, kind, pure_eq, Reader.succeed]
  | parser =>
      have continued {found : Option String} {later : List Lexeme}
          (read : bracketed.optional rest = .done found later) :
          reference (lexeme :: rest) = .done (.reference name found) later := by
        simp only [reference, bind_eq, Reader.andThen, identified, kind, read, pure_eq,
          Reader.succeed]
      have left (clear : Clear [.charSet] rest) : bracketed.optional rest = .done none rest := by
        obtain ⟨_, missed⟩ := (bracketed_decides).misses clear
        simp only [Reader.optional, missed]
      cases rest with
      | nil => exact Or.inl ⟨_, continued (left (.nil _))⟩
      | cons set later =>
          by_cases bracket : set.token.terminal = .charSet
          · obtain ⟨text, taken⟩ := (bracketed_decides).toRecognizes.take bracket later
            have present : bracketed.optional (set :: later) = .done (some text) later := by
              simp only [Reader.optional, taken]
            exact Or.inr ⟨_, set, later, rfl, bracket, continued present⟩
          · exact Or.inl ⟨_, continued (left (.cons (mt List.mem_singleton.mp bracket) later))⟩

theorem atom_of_reference {lexeme : Lexeme} {options later rest : List Lexeme} {value : Atom}
    (named : lexeme.token.terminal = .name)
    (read : reference (lexeme :: rest) = .done value (options ++ later))
    (optionsDerive : Derives (.optional (.notion .elementOptions)) (terminals options))
    (clear : Clear [.mark .less] later) : atom (lexeme :: rest) = .done value later := by
  have notBefore {barred : List Terminal} (free : .name ∉ barred) : Clear barred (lexeme :: rest) :=
    .cons (named ▸ free) rest
  obtain ⟨_, noLiteral⟩ := (literalOrRange_decides).misses (notBefore (by decide))
  obtain ⟨_, noSet⟩ := (charSet_decides).misses (notBefore (by decide))
  obtain ⟨_, skipped⟩ :=
    (elementOptions_decides).optional.complete _ (Nat.le_refl _) optionsDerive clear
  simp only [atom, bind_eq, Reader.andThen, Reader.orElse, noLiteral, noSet, read, skipped, pure_eq,
    Reader.succeed]

theorem reference_leaves {lexeme : Lexeme} {word rest : List Lexeme}
    (named : lexeme.token.terminal = .name) (whole : Derives .afterName (terminals word))
    (bracketed : ∀ others, terminals word = .charSet :: others → Derives .afterName others)
    (clear : Clear Form.elementMore rest) : Leaves atom .afterAtom (lexeme :: word) rest := by
  have finish {value : Atom} {left : List Lexeme} (derives : Derives .afterName (terminals left))
      (shorter : left.length < (lexeme :: word).length)
      (read : reference (lexeme :: (word ++ rest)) = .done value (left ++ rest)) :
      Leaves atom .afterAtom (lexeme :: word) rest := by
    obtain ⟨options, after, rfl, optionsDerive, afterDerives⟩ := split_of_pair derives
    rw [List.append_assoc] at read
    have clearAfter : Clear [.mark .less] (after ++ rest) :=
      .append afterDerives clear (by decide)
    refine ⟨value, after, atom_of_reference named read optionsDerive clearAfter, afterDerives, ?_⟩
    rw [List.length_append] at shorter
    omega
  rcases reference_name named (word ++ rest) with ⟨_, read⟩ | ⟨_, set, later, split, isSet, read⟩
  · exact finish whole (Nat.lt_succ_self _) read
  · cases word with
    | nil => exact absurd (isSet ▸ clear set (congrArg List.head? split)) (by decide)
    | cons first others =>
        obtain ⟨rfl, rfl⟩ := List.cons.inj split
        refine finish (bracketed _ (congrArg (· :: terminals others) isSet)) ?_ read
        simp only [List.length_cons]
        omega

/-- An atom is read in front of elements; if a set comes first of these, it may be taken as well. -/
theorem atom_leaves {taken after rest : List Lexeme}
    (derives : Derives (.notion .atom) (terminals taken))
    (afterDerives : Derives .afterAtom (terminals after)) (clear : Clear Form.elementMore rest) :
    Leaves atom .afterAtom (taken ++ after) rest := by
  rcases derives.atom_cases with refers | standing
  · obtain ⟨front, options, rfl, frontDerives, optionsDerive⟩ := split_of_pair refers
    obtain ⟨name, arguments, rfl, nameDerives, argumentsDerive⟩ := split_of_pair frontDerives
    obtain ⟨lexeme, rfl, named⟩ := lexeme_of_derives nameDerives
    obtain ⟨whole, bracketed⟩ := argumentsDerive.afterName optionsDerive afterDerives rfl
    rw [← terminals_append, ← terminals_append] at whole bracketed
    rw [List.append_assoc, List.append_assoc]
    exact reference_leaves named whole bracketed clear
  · exact .of_completes atom_exact standing rfl afterDerives
      (.append afterDerives clear (by decide))

end Parse

end Railroad
