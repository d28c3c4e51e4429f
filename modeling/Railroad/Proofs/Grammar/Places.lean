import Railroad.Proofs.Documentation.Attached
import Railroad.Proofs.Grammar.Names
import Railroad.Proofs.Grammar.Neighbours
import Railroad.Proofs.Token.Slices

/-!
# Places of names

The names in the tree of a grammar point back to the source: each of them is cut out of the source
by its span, and in the order of the tree the spans follow each other.  A rule belongs to the mode
that is declared last before its name.
-/

namespace Railroad

theorem Lexeme.name?_eq_some {lexeme : Lexeme} {name : Located String}
    (found : lexeme.name? = some name) :
    lexeme.span = name.span ∧
      ∀ slice, lexeme.token.SpelledBy slice → slice = name.value.toList := by
  unfold name? at found
  split at found
  next same =>
    cases found
    exact ⟨rfl, fun slice spelled => by rw [same] at spelled; exact spelled⟩
  next same =>
    cases found
    exact ⟨rfl, fun slice spelled => by rw [same] at spelled; exact spelled⟩
  next => cases found

/-- Names of a source are cut out of it by their spans, which follow each other. -/
theorem namesOf_places {source : String} {lexemes : List Lexeme}
    (scanned : tokenize source = .ok lexemes) :
    (∀ name ∈ namesOf (significant lexemes), name.span.start < name.span.stop ∧
        name.span.slice? source.toList = some name.value.toList) ∧
      (namesOf (significant lexemes)).Pairwise fun first second =>
        first.span.stop ≤ second.span.start := by
  have spelled := tokenize_spelled scanned
  constructor
  · intro name member
    obtain ⟨lexeme, listed, found⟩ := List.mem_filterMap.mp member
    obtain ⟨place, spells⟩ := Lexeme.name?_eq_some found
    have inSource := (mem_significant.mp listed).1
    obtain ⟨slice, cut, token⟩ := @Spelled.slices [] _ _ spelled lexeme inSource
    rw [← place, ← spells slice token]
    exact ⟨spelled.covers.nonempty lexeme inSource, cut⟩
  · refine (spelled.covers.ordered.filter _).filterMap _ fun first second ordered => ?_
    intro name found other foundOther
    rw [← (Lexeme.name?_eq_some found).1, ← (Lexeme.name?_eq_some foundOther).1]
    exact ordered

namespace Parse

open Reader

/-- The lexemes of a mode declare it; those of a rule declare no mode, and before the name of the
rule there is none either. -/
def Sectioned (taken : List Lexeme) : Section → Prop
  | .mode name => ∀ rest, modesOf (tokensOf taken ++ rest) = name :: modesOf rest
  | .rule declared => (∀ rest, modesOf (tokensOf taken ++ rest) = modesOf rest) ∧
      ∃ before lexeme behind, taken = before ++ lexeme :: behind ∧
        lexeme.span = declared.name.span ∧ modesOf (tokensOf before) = []

theorem modeDeclaration_declares : Yields modeDeclaration fun taken name =>
    ∀ rest, modesOf (tokensOf taken ++ rest) = name :: modesOf rest := by
  have name : Yields identifier fun taken name => ∃ lexeme, taken = [lexeme] ∧
      lexeme.name? = some name :=
    Yields.accept _ Lexeme.name?
  refine (Yields.andThen (Yields.token _) fun _ => (Yields.andThen name fun found =>
    Yields.andThen (Yields.token _) fun _ => Yields.succeed found.value).committed).mono
      fun taken found => ?_
  rintro ⟨_, _, _, rfl, ⟨first, rfl, isMode⟩, name, _, _, rfl, ⟨second, rfl, named⟩, _, _, _, rfl,
    ⟨third, rfl, isSemicolon⟩, rfl, rfl⟩ rest
  simp only [List.append_nil, tokensOf, List.map_cons, List.map_nil, List.cons_append,
    List.nil_append, isMode, isSemicolon]
  unfold Lexeme.name? at named
  split at named
  next same =>
    cases named
    rw [same, modesOf]
  next same =>
    cases named
    rw [same, modesOf]
  next => cases named

theorem rule_sectioned : Yields rule fun taken declared => Sectioned taken (.rule declared) := by
  have none : Yields rule fun taken _ => ∀ rest, modesOf (tokensOf taken ++ rest) = modesOf rest :=
    (rule_recognizes).sound.mono fun _ _ derives => derives.declares_none (by decide) (by decide)
  refine (none.both Documentation.rule_declared).mono fun taken declared => ?_
  rintro ⟨passed, stands⟩
  refine ⟨passed, ?_⟩
  cases stands with
  | @mk modifiers _ _ word _ _ _ modified place =>
      refine ⟨modifiers, word, _, rfl, place, modesOf_eq_nil fun member => ?_⟩
      obtain ⟨lexeme, listed, same⟩ := List.mem_map.mp member
      have modifies := modified lexeme listed
      rw [same] at modifies
      cases modifies

theorem fileSection_sectioned : Yields fileSection fun taken found =>
    Sectioned taken found ∧ taken ≠ [] := by
  have mode : Yields (modeDeclaration.map Section.mode) Sectioned := by
    refine ((modeDeclaration_declares).map _).mono fun taken found => ?_
    rintro ⟨name, declares, rfl⟩
    exact declares
  have declared : Yields (committed (rule.map Section.rule)) Sectioned := by
    refine ((rule_sectioned).map _).committed.mono fun taken found => ?_
    rintro ⟨value, sectioned, rfl⟩
    exact sectioned
  exact (mode.orElse declared).both fileSection_takes

/-- The lexeme of a rule's name, and the mode that is declared last before it. -/
def InMode (lexemes : List Lexeme) (mode : Option String) (rule : Rule) : Prop :=
  ∃ before name behind, lexemes = before ++ name :: behind ∧ name.span = rule.name.span ∧
    rule.mode = (modesOf (tokensOf before)).getLast?.or mode

theorem sections_modes {taken : List Lexeme} {sections : List Section}
    (each : Each Sectioned taken sections) :
    modesOf (tokensOf taken) = modeNames sections ∧
      ∀ mode, ∀ rule ∈ rulesInModes mode sections, InMode taken mode rule := by
  induction each with
  | nil => exact ⟨rfl, fun _ => List.forall_mem_nil _⟩
  | @cons front back first rest head _ ih =>
      obtain ⟨modes, rules⟩ := ih
      cases first with
      | mode name =>
          refine ⟨?_, fun mode rule listed => ?_⟩
          · rw [tokensOf_append, head, modes, modeNames]
          · obtain ⟨before, lexeme, behind, rfl, place, last⟩ := rules (some name) rule listed
            refine ⟨front ++ before, lexeme, behind, (List.append_assoc ..).symm, place, ?_⟩
            rw [last, tokensOf_append, head, List.getLast?_cons]
            cases (modesOf (tokensOf before)).getLast? <;> rfl
      | rule declared =>
          obtain ⟨passed, before, lexeme, behind, rfl, place, none⟩ := head
          refine ⟨?_, fun mode rule listed => ?_⟩
          · rw [tokensOf_append, passed, modes, modeNames]
          · rcases List.mem_cons.mp listed with rfl | later
            · refine ⟨before, lexeme, behind ++ back, by simp, place, ?_⟩
              rw [none]
              rfl
            · obtain ⟨earlier, name, after, rfl, placed, last⟩ := rules mode rule later
              refine ⟨_ ++ earlier, name, after, (List.append_assoc ..).symm, placed, ?_⟩
              rw [last, tokensOf_append, passed]

/-- The modes of a grammar are declared in its source, and every rule is in the last one before. -/
theorem grammar_modes {lexemes rest : List Lexeme} {found : Grammar}
    (read : grammar lexemes = .done found rest) :
    found.modes = modesOf (tokensOf lexemes) ∧ ∀ rule ∈ found.rules, InMode lexemes none rule := by
  obtain ⟨_, _, readHeader, read⟩ := andThen_done read
  obtain ⟨_, _, readPrequels, read⟩ := andThen_done read
  obtain ⟨sections, _, readSections, done⟩ := andThen_done read
  cases done
  obtain rfl : rest = [] :=
    Yields.exhaust_nil fileSection_sectioned (fun _ _ both => both.2) readSections
  obtain ⟨front, rfl, frontDerives⟩ := (header_recognizes).sound readHeader
  obtain ⟨middle, rfl, middleDerives⟩ := (prequel_decides).sound.many readPrequels
  obtain ⟨back, rfl, each⟩ := (fileSection_sectioned).exhaust (fun _ _ both => both.2) readSections
  obtain ⟨modes, rules⟩ := sections_modes (each.mono fun _ _ both => both.1)
  have inFront (tokens : List Token) :
      modesOf (tokensOf front ++ (tokensOf middle ++ tokens)) = modesOf tokens := by
    rw [frontDerives.declares_none (by decide) (by decide),
      middleDerives.declares_none (by decide) (by decide)]
  refine ⟨?_, fun rule listed => ?_⟩
  · rw [List.append_nil, tokensOf_append, tokensOf_append, inFront, modes]
  · obtain ⟨before, name, behind, rfl, place, last⟩ := rules none rule listed
    refine ⟨front ++ (middle ++ before), name, behind, by simp, place, ?_⟩
    rw [last, tokensOf_append, tokensOf_append, inFront]

end Parse

/--
The names in the tree of a grammar point back to its source: each of them is the slice that its
span cuts out, and the spans of the grammar's name, the rules' names and the references in their
bodies follow each other in the order of the tree.  Every rule is in the mode that is declared
last before its name.
-/
theorem Grammar.names_placed {source : String} {found : Grammar}
    (parsed : Grammar.parse source = .ok found) :
    (∀ name ∈ found.names, name.span.start < name.span.stop ∧
        name.span.slice? source.toList = some name.value.toList) ∧
      (found.names.Pairwise fun first second => first.span.stop ≤ second.span.start) ∧
      ∃ lexemes, tokenize source = .ok lexemes ∧
        found.modes = modesOf (tokensOf (significant lexemes)) ∧
        ∀ rule ∈ found.rules, ∃ before name behind,
          significant lexemes = before ++ name :: behind ∧ name.span = rule.name.span ∧
            rule.mode = (modesOf (tokensOf before)).getLast? := by
  obtain ⟨lexemes, rest, scanned, read⟩ := Grammar.parse_eq_ok.mp parsed
  obtain ⟨places, ordered⟩ := namesOf_places scanned
  obtain ⟨taken, split, names⟩ := Parse.grammar_names.yields read
  have within : found.names.Sublist (namesOf (significant lexemes)) :=
    names.trans (split ▸ (List.sublist_append_left taken rest).filterMap _)
  obtain ⟨modes, rules⟩ := Parse.grammar_modes read
  refine ⟨fun name member => places name (within.subset member), ordered.sublist within, lexemes,
    scanned, modes, fun rule listed => ?_⟩
  obtain ⟨before, name, behind, split, place, last⟩ := rules rule listed
  exact ⟨before, name, behind, split, place, last.trans Option.or_none⟩

theorem Grammar.names_placed_modes : ∃ found lexemes,
    Grammar.parse "lexer grammar g; A : 'é' (B | ~(C | 'd'))* ; mode X; D : A -> mode(Y) ; mode Y; E : ;" =
        .ok found ∧ found.names.length = 7 ∧
      tokenize "lexer grammar g; A : 'é' (B | ~(C | 'd'))* ; mode X; D : A -> mode(Y) ; mode Y; E : ;" =
        .ok lexemes ∧
      (∀ name ∈ found.names, name.span.start < name.span.stop ∧ name.span.slice?
          "lexer grammar g; A : 'é' (B | ~(C | 'd'))* ; mode X; D : A -> mode(Y) ; mode Y; E : ;".toList =
        some name.value.toList) ∧
      (found.names.Pairwise fun first second => first.span.stop ≤ second.span.start) ∧
      found.modes = modesOf (tokensOf (significant lexemes)) ∧
      ∀ rule ∈ found.rules, ∃ before name behind,
        significant lexemes = before ++ name :: behind ∧ name.span = rule.name.span ∧
          rule.mode = (modesOf (tokensOf before)).getLast? := by
  have ok : ((Grammar.parse
      "lexer grammar g; A : 'é' (B | ~(C | 'd'))* ; mode X; D : A -> mode(Y) ; mode Y; E : ;").map
        fun found => found.names.length).toOption = some 7 := by
    decide +kernel
  cases parsed : Grammar.parse
      "lexer grammar g; A : 'é' (B | ~(C | 'd'))* ; mode X; D : A -> mode(Y) ; mode Y; E : ;" with
  | error rejection => rw [parsed] at ok; cases ok
  | ok found =>
      rw [parsed] at ok
      obtain ⟨places, ordered, lexemes, scanned, modes⟩ := Grammar.names_placed parsed
      exact ⟨found, lexemes, rfl, Option.some.inj ok, scanned, places, ordered, modes⟩

end Railroad
