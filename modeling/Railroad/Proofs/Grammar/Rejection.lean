import Railroad.Proofs.Grammar.Settled
import Railroad.Proofs.Printing.Declared
import Railroad.Proofs.Token.Slices

/-!
# Rejected grammars

A diagnostic points at a place in the lexemes.  What stands in front of that place is the beginning
of some grammar, so the place is never behind the first lexeme that is wrong.  An input that is
called incomplete is indeed one; an incomplete input is called so unless it ends in a part that is
read on trial.
-/

namespace Railroad

namespace Outcome

variable {α : Type} {outcome : Outcome α}

theorem rest_of_setback {setback : Setback} (stopped : outcome.setback? = some setback) :
    outcome.rest = setback.rest := by
  cases outcome with
  | done => cases stopped
  | missed | failed => cases stopped; rfl

theorem stop?_of_setback {setback : Setback} (stopped : outcome.setback? = some setback) :
    outcome.stop? false = some setback := by
  cases outcome with
  | done => cases stopped
  | missed | failed => exact stopped

theorem setback?_extend (more : List Lexeme) :
    (outcome.extend more).setback? = outcome.setback?.map (Setback.extend more) := by
  cases outcome <;> rfl

end Outcome

/-- Some token that stands for the terminal. -/
def Terminal.token : Terminal → Token
  | keyword word => .keyword word
  | mark sign => .mark sign
  | name => .ruleName "x"
  | literal => .literal "''"
  | charSet => .charSet "[]"
  | action => .action "\x7b\x7d"
  | integer => .integer "0"
  | trivia => .blanks

def Terminal.lexeme (terminal : Terminal) : Lexeme := ⟨terminal.token, .origin⟩

theorem terminals_map_lexeme (word : List Terminal) :
    terminals (word.map Terminal.lexeme) = word := by
  induction word with
  | nil => rfl
  | cons terminal rest ih =>
      rw [List.map_cons, terminals_cons, ih]
      cases terminal <;> rfl

theorem significant_eq_self {lexemes : List Lexeme} (plain : .trivia ∉ terminals lexemes) :
    significant lexemes = lexemes := by
  refine List.filter_eq_self.mpr fun lexeme member => ?_
  have other : lexeme.token.terminal ≠ .trivia := fun same =>
    plain (List.mem_map.mpr ⟨lexeme, member, same⟩)
  cases found : lexeme.token <;> simp_all [Token.terminal, Token.isTrivia]

/-- What is kept stays when trivia is left out again. -/
theorem significant_of_subset {part lexemes : List Lexeme} (within : part ⊆ significant lexemes) :
    significant part = part :=
  List.filter_eq_self.mpr fun _ member => (List.mem_filter.mp (within member)).2

namespace Grammar

/-- What begins like a file can be continued to a grammar, and nothing else can. -/
theorem commences_iff (lexemes : List Lexeme) :
    Commences (.notion .file) (terminals (significant lexemes)) ↔
      ∃ more found, Grammar.ofLexemes (lexemes ++ more) = .ok found := by
  have whole (more : List Lexeme) : terminals (significant (lexemes ++ more)) =
      terminals (significant lexemes) ++ terminals (significant more) := by
    rw [significant_append, terminals_append]
  constructor
  · rintro ⟨rest, derives⟩
    have plain : .trivia ∉ rest := fun member =>
      absurd (derives.mem_letters _ (List.mem_append_right _ member)) (by decide)
    have kept : terminals (significant (rest.map Terminal.lexeme)) = rest := by
      rw [significant_eq_self, terminals_map_lexeme]
      rwa [terminals_map_lexeme]
    refine ⟨rest.map Terminal.lexeme, ofLexemes_of_derives ?_⟩
    rwa [whole, kept]
  · rintro ⟨more, found, accepted⟩
    exact ⟨_, whole more ▸ derives_of_ofLexemes accepted⟩

/-- Lexemes that are no grammar yet, but become one when others follow. -/
def Incomplete (lexemes : List Lexeme) : Prop :=
  ∃ more found, more ≠ [] ∧ Grammar.ofLexemes (significant lexemes ++ more) = .ok found

theorem ofLexemes_eq_error {lexemes : List Lexeme} {diagnostic : Diagnostic} :
    Grammar.ofLexemes lexemes = .error diagnostic ↔
      ∃ setback, (Parse.grammar (significant lexemes)).setback? = some setback ∧
        Parse.diagnose (significant lexemes) setback = diagnostic := by
  rw [Grammar.ofLexemes]
  cases Parse.grammar (significant lexemes) <;> simp [Outcome.setback?]

theorem ofLexemes_significant (lexemes : List Lexeme) :
    Grammar.ofLexemes (significant lexemes) = Grammar.ofLexemes lexemes := by
  rw [Grammar.ofLexemes, Grammar.ofLexemes, significant_of_subset (List.Subset.refl _)]

end Grammar

/-- The union of the spans of lexemes. -/
def spanOver? : List Lexeme → Option Span
  | [] => none
  | first :: others => some (others.foldl (fun span lexeme => span.union lexeme.span) first.span)

/-- The union of spans in order reaches from the first to the last. -/
theorem foldl_union {lexemes : List Lexeme} {span : Span} {last : Lexeme}
    (behind : ∀ lexeme ∈ lexemes, span.stop ≤ lexeme.span.start)
    (ordered : lexemes.Pairwise fun first second => first.span.stop ≤ second.span.start)
    (ends : lexemes.getLast? = some last) :
    lexemes.foldl (fun span lexeme => span.union lexeme.span) span = span.union last.span := by
  induction lexemes generalizing span with
  | nil => cases ends
  | cons first rest ih =>
      have here := behind first (List.mem_cons_self ..)
      obtain ⟨beforeRest, orderedRest⟩ := List.pairwise_cons.mp ordered
      cases rest with
      | nil => cases ends; rfl
      | cons second others =>
          have inside := beforeRest last (List.mem_of_getLast? ends)
          have upTo : ∀ lexeme ∈ second :: others,
              (span.union first.span).stop ≤ lexeme.span.start := fun lexeme member =>
            Nat.max_le.mpr ⟨behind lexeme (List.mem_cons_of_mem _ member), beforeRest lexeme member⟩
          rw [List.foldl_cons, ih upTo orderedRest ends]
          have inOrder := first.span.start_le_stop
          have inOrderToo := last.span.start_le_stop
          have inOrderFirst := span.start_le_stop
          simp only [Span.union, Span.mk.injEq]
          omega

theorem spanOver?_eq_union {lexemes : List Lexeme} {first last : Lexeme}
    (ordered : lexemes.Pairwise fun first second => first.span.stop ≤ second.span.start)
    (starts : lexemes.head? = some first) (ends : lexemes.getLast? = some last) :
    spanOver? lexemes = some (first.span.union last.span) := by
  obtain ⟨others, rfl⟩ := List.head?_eq_some_iff.mp starts
  obtain ⟨behind, orderedOthers⟩ := List.pairwise_cons.mp ordered
  cases others with
  | nil =>
      cases ends
      simp [spanOver?, Span.union]
  | cons second rest => exact congrArg some (foldl_union behind orderedOthers ends)

/-- A lexeme that has its place for itself is found by its span. -/
theorem map_span_eq_some_iff {lexemes : List Lexeme} {lexeme : Lexeme} {count : Nat}
    (places : lexemes.Pairwise fun first second => first.span ≠ second.span)
    (here : lexemes[count]? = some lexeme) (index : Nat) :
    lexemes[index]?.map Lexeme.span = some lexeme.span ↔ index = count := by
  have distinct : (lexemes.map Lexeme.span).Nodup := List.pairwise_map.mpr places
  have within := (List.getElem?_eq_some_iff.mp here).1
  have mapped : lexemes[count]?.map Lexeme.span = some lexeme.span := congrArg _ here
  rw [← mapped, ← List.getElem?_map, ← List.getElem?_map, eq_comm,
    List.getElem?_inj (by rwa [List.length_map]) distinct, eq_comm]

/-! ## Diagnostics and their places -/

/-- The diagnostic points behind `count` of the lexemes. -/
structure Diagnostic.PointsBehind (diagnostic : Diagnostic) (lexemes : List Lexeme) (count : Nat) :
    Prop where
  code : diagnostic.code = some .incompleteInput ∨ diagnostic.code = some .unexpectedToken
  /-- An incomplete input is at fault where it ends. -/
  atEnd : diagnostic.code = some .incompleteInput → count = lexemes.length ∧
    ∃ last, lexemes.getLast? = some last ∧
      diagnostic.primarySpan? = some (.between last.span.stop last.span.stop)
  /-- An unexpected token is the one lexeme at the marked span. -/
  atToken : diagnostic.code = some .unexpectedToken → ∃ span, diagnostic.primarySpan? = some span ∧
    ∀ index, lexemes[index]?.map Lexeme.span = some span ↔ index = count
  /-- What had been entered is marked up to that place. -/
  around : ∀ label ∈ diagnostic.labels, label.kind = .secondary →
    ∃ first < count, spanOver? ((lexemes.take count).drop first) = some label.span
  once : diagnostic.labels.countP (fun label => label.kind == .secondary) ≤ 1

/-- The numbers from which a report is made fit the lexemes that it is about. -/
structure Setback.Fits (setback : Setback) (lexemes : List Lexeme) (count : Nat) : Prop where
  /-- What is left comes behind the first `count` lexemes. -/
  left : count + setback.rest.length = lexemes.length
  opened : ∀ size ∈ setback.opened, size ≤ lexemes.length
  /-- A construct that began before the stop has a first and a last lexeme. -/
  entered : ∀ size ∈ setback.opened, lexemes.length - size < count →
    (∃ first, lexemes[lexemes.length - size]? = some first) ∧
      ∃ last, lexemes[count - 1]? = some last

theorem Reader.StopsAt.fits {form : Form} {front : List Lexeme} {setback : Setback}
    (stops : StopsAt form (front ++ setback.rest) setback) :
    setback.Fits (front ++ setback.rest) front.length where
  left := List.length_append.symm
  opened := stops.opened
  entered size _ before := by
    have within : front.length ≤ (front ++ setback.rest).length :=
      List.length_append ▸ Nat.le_add_right ..
    exact ⟨⟨_, List.getElem?_eq_getElem (by omega)⟩, _, List.getElem?_eq_getElem (by omega)⟩

namespace Parse

variable {lexemes front : List Lexeme} {setback : Setback}

/-- Behind the opening of a construct there is only what has been passed. -/
theorem consumedSince_append {opened : Nat} (within : opened ≤ (front ++ setback.rest).length) :
    consumedSince opened setback (front ++ setback.rest) =
      front.drop ((front ++ setback.rest).length - opened) := by
  rw [consumedSince, List.drop_append]
  refine List.take_left' ?_
  rw [List.length_append] at within
  rw [List.length_drop, List.length_append]
  omega

/-- The label of a construct covers the lexemes from its opening to the place of the stop. -/
theorem mem_constructLabel {label : SourceLabel}
    (opened : ∀ size ∈ setback.opened, size ≤ (front ++ setback.rest).length)
    (ordered : front.Pairwise fun first second => first.span.stop ≤ second.span.start)
    (member : label ∈ constructLabel setback (front ++ setback.rest)) :
    ∃ first < front.length, spanOver? (front.drop first) = some label.span := by
  unfold constructLabel at member
  cases entered : setback.opened with
  | none => rw [entered] at member; cases member
  | some size =>
      rw [entered] at member
      simp only [consumedSince_append (opened size entered)] at member
      generalize (front ++ setback.rest).length - size = first at member
      split at member
      next starts ends =>
        obtain rfl := List.mem_singleton.mp member
        refine ⟨first, ?_, spanOver?_eq_union ordered.drop starts ends⟩
        refine Nat.lt_of_not_le fun beyond => ?_
        rw [List.drop_eq_nil_of_le beyond] at starts
        cases starts
      next => cases member

theorem constructLabel_length_le (setback : Setback) (lexemes : List Lexeme) :
    (constructLabel setback lexemes).length ≤ 1 := by
  unfold constructLabel
  split
  · exact Nat.zero_le 1
  · dsimp only
    split
    · exact Nat.le_refl 1
    · exact Nat.zero_le 1

/-- An input is called incomplete where nothing of it is left. -/
theorem diagnose_code (within : setback.rest.length ≤ lexemes.length) :
    (diagnose lexemes setback).code =
      some (if setback.rest = [] then .incompleteInput else .unexpectedToken) := by
  unfold diagnose
  split
  next none =>
    rw [List.getLast?_eq_none_iff.mp none] at within
    rw [if_pos (List.length_eq_zero_iff.mp (Nat.le_zero.mp within))]
  next =>
    split
    next none => rw [if_pos none]
    next left => rw [if_neg (left ▸ List.cons_ne_nil _ _)]

theorem diagnose_atEnd (present : lexemes ≠ []) (none : setback.rest = []) :
    (diagnose lexemes setback).PointsBehind lexemes lexemes.length := by
  have ends := List.getLast?_eq_some_getLast present
  simp only [diagnose, ends, none]
  exact {
    code := Or.inl rfl
    atEnd := fun _ => ⟨rfl, _, ends, rfl⟩
    atToken := fun other => nomatch other
    around := by simp
    once := Nat.zero_le 1 }

theorem diagnose_atToken {offending : Lexeme} {rest : List Lexeme}
    (stop : setback.rest = offending :: rest)
    (opened : ∀ size ∈ setback.opened, size ≤ (front ++ setback.rest).length)
    (ordered : (front ++ setback.rest).Pairwise fun first second =>
      first.span.stop ≤ second.span.start)
    (places : (front ++ setback.rest).Pairwise fun first second => first.span ≠ second.span) :
    (diagnose (front ++ setback.rest) setback).PointsBehind (front ++ setback.rest)
      front.length := by
  have present : front ++ setback.rest ≠ [] := by simp [stop]
  have ends := List.getLast?_eq_some_getLast present
  have report : diagnose (front ++ setback.rest) setback = {
      severity := .error
      code := some .unexpectedToken
      message := "unexpected token: " ++ expectations setback
      labels := ⟨.primary, offending.span, "unexpected token"⟩ ::
        constructLabel setback (front ++ setback.rest)
      help := some "check syntax and token positioning" } := by
    rw [diagnose, ends]
    simp only [stop]
  have here : (front ++ setback.rest)[front.length]? = some offending := by
    rw [stop, List.getElem?_append_right (Nat.le_refl _), Nat.sub_self]
    rfl
  rw [report]
  refine ⟨Or.inr rfl, (fun other => nomatch other), fun _ => ⟨offending.span, rfl, ?_⟩, ?_, ?_⟩
  · exact map_span_eq_some_iff places here
  · intro label member secondary
    rcases List.mem_cons.mp member with rfl | member
    · cases secondary
    · rw [List.take_left]
      exact mem_constructLabel opened (List.pairwise_append.mp ordered).1 member
  · rw [List.countP_cons_of_neg Bool.false_ne_true]
    exact Nat.le_trans List.countP_le_length (constructLabel_length_le ..)

end Parse

namespace Grammar

/--
A report never points behind the first lexeme that is wrong: all in front of its place is the
beginning of a grammar.
-/
theorem rejection_located {source : String} {lexemes : List Lexeme} {diagnostic : Diagnostic}
    (scanned : tokenize source = .ok lexemes) (present : significant lexemes ≠ [])
    (rejected : Grammar.ofLexemes lexemes = .error diagnostic) :
    ∃ setback count,
      (Parse.grammar (significant lexemes)).setback? = some setback ∧
        setback.Fits (significant lexemes) count ∧
        diagnostic.PointsBehind (significant lexemes) count ∧
        ∃ more found, Grammar.ofLexemes ((significant lexemes).take count ++ more) = .ok found := by
  obtain ⟨setback, stopped, rfl⟩ := ofLexemes_eq_error.mp rejected
  have stops := Parse.grammar_keepsTo.stops stopped
  have ordered := (tokenize_spelled scanned).covers.ordered.filter fun lexeme => !lexeme.token.isTrivia
  have places := tokenize_places scanned
  obtain ⟨front, split, begins⟩ := stops.begins
  have kept : significant front = front :=
    significant_of_subset (split ▸ List.subset_append_left front setback.rest)
  rw [← significant] at ordered
  refine ⟨setback, front.length, stopped, ?_⟩
  rw [split] at stops ordered places present ⊢
  refine ⟨stops.fits, ?_, ?_⟩
  · cases left : setback.rest with
    | nil =>
        rw [left, List.append_nil] at present
        rw [List.append_nil]
        exact Parse.diagnose_atEnd present left
    | cons offending rest => exact left ▸ Parse.diagnose_atToken left stops.opened ordered places
  · rw [List.take_left, ← commences_iff, kept]
    exact begins

theorem rejection_located_group : ∃ lexemes diagnostic,
    tokenize "grammar g; a : /* é */ b ( c | 'd' ;" = .ok lexemes ∧
      Grammar.ofLexemes lexemes = .error diagnostic ∧
      ∃ setback count,
        (Parse.grammar (significant lexemes)).setback? = some setback ∧
          setback.Fits (significant lexemes) count ∧
          diagnostic.PointsBehind (significant lexemes) count ∧
          ∃ more found,
            Grammar.ofLexemes ((significant lexemes).take count ++ more) = .ok found := by
  have known : (match tokenize "grammar g; a : /* é */ b ( c | 'd' ;" with
    | .ok lexemes => !(significant lexemes).isEmpty && !(Grammar.ofLexemes lexemes).isOk
    | .error _ => false) = true := by decide +kernel
  cases scanned : tokenize "grammar g; a : /* é */ b ( c | 'd' ;" with
  | error rejection => rw [scanned] at known; cases known
  | ok lexemes =>
      rw [scanned] at known
      obtain ⟨present, wrong⟩ := (Bool.and_eq_true _ _).mp known
      cases rejected : Grammar.ofLexemes lexemes with
      | ok found => rw [rejected] at wrong; cases wrong
      | error diagnostic =>
          refine ⟨lexemes, diagnostic, rfl, rejected, rejection_located scanned ?_ rejected⟩
          rintro none
          rw [none] at present
          cases present

variable {lexemes : List Lexeme} {setback : Setback}

/-- What is read to its end without being a grammar can go on as one. -/
theorem incomplete_of_atEnd
    (stopped : (Parse.grammar (significant lexemes)).setback? = some setback)
    (atEnd : setback.rest = []) : Incomplete lexemes := by
  obtain ⟨front, split, begins⟩ := (Parse.grammar_keepsTo.stops stopped).begins
  rw [atEnd, List.append_nil] at split
  rw [← split, ← significant_of_subset (List.Subset.refl (significant lexemes)),
    commences_iff] at begins
  obtain ⟨more, found, accepted⟩ := begins
  refine ⟨more, found, ?_, accepted⟩
  rintro rfl
  rw [List.append_nil, ofLexemes_significant] at accepted
  rw [ofLexemes_eq_error.mpr ⟨setback, stopped, rfl⟩] at accepted
  cases accepted

/-- Only in front of a tentative part reading goes back from the end of an incomplete grammar. -/
theorem Incomplete.atEnd (incomplete : Incomplete lexemes)
    (stopped : (Parse.grammar (significant lexemes)).setback? = some setback)
    (firm : terminals (significant lexemes) ∉ Form.endings Form.tentative) : setback.rest = [] := by
  obtain ⟨more, found, -, accepted⟩ := incomplete
  obtain ⟨rest, read⟩ := ofLexemes_eq_ok.mp accepted
  rw [significant_append, significant_of_subset (List.Subset.refl _)] at read
  have heeds : Reader.Heeds (significant more) _ _ _ _ _ := Parse.grammar_heeds
  rcases heeds.heeds (significant lexemes) with same | atEnd | tentative
  · have none := congrArg Outcome.setback? (same.symm.trans read)
    rw [Outcome.setback?_extend, stopped] at none
    cases none
  · exact Outcome.rest_of_setback stopped ▸ atEnd
  · exact absurd tentative firm

theorem firm_of_atEnd (stopped : (Parse.grammar (significant lexemes)).setback? = some setback)
    (atEnd : setback.rest = []) :
    terminals (significant lexemes) ∉ Form.endings Form.tentative := by
  intro tentative
  have calm := Parse.grammar_settles.settled (List.mem_singleton_self _)
    (Outcome.stop?_of_setback stopped) atEnd
  rw [Form.pending_of_mem_endings tentative] at calm
  cases calm

/--
An input is called incomplete if and only if it is the beginning of a grammar that does not end in
a part which is read on trial; such a part is blamed for not being something else.
-/
theorem rejection_code {diagnostic : Diagnostic}
    (rejected : Grammar.ofLexemes lexemes = .error diagnostic) :
    (diagnostic.code = some .incompleteInput ∨ diagnostic.code = some .unexpectedToken) ∧
      (diagnostic.code = some .incompleteInput ↔
        Incomplete lexemes ∧ terminals (significant lexemes) ∉ Form.endings Form.tentative) := by
  obtain ⟨setback, stopped, rfl⟩ := ofLexemes_eq_error.mp rejected
  obtain ⟨front, split, -⟩ := (Parse.grammar_keepsTo.stops stopped).begins
  have within : setback.rest.length ≤ (significant lexemes).length := by
    rw [split, List.length_append]
    exact Nat.le_add_left ..
  rw [Parse.diagnose_code within]
  by_cases atEnd : setback.rest = []
  · simp only [if_pos atEnd, true_or, true_and, true_iff]
    exact ⟨incomplete_of_atEnd stopped atEnd, firm_of_atEnd stopped atEnd⟩
  · simp only [if_neg atEnd, Option.some.injEq, reduceCtorEq, or_true, true_and, false_iff]
    rintro ⟨incomplete, firm⟩
    exact atEnd (incomplete.atEnd stopped firm)

theorem rejection_code_group : ∃ lexemes diagnostic,
    tokenize "grammar g; a throws b : x = ( 'c' |" = .ok lexemes ∧
      Grammar.ofLexemes lexemes = .error diagnostic ∧
      (diagnostic.code = some .incompleteInput ∨ diagnostic.code = some .unexpectedToken) ∧
      (diagnostic.code = some .incompleteInput ↔
        Incomplete lexemes ∧
          terminals (significant lexemes) ∉ Form.endings Form.tentative) := by
  have known : (match tokenize "grammar g; a throws b : x = ( 'c' |" with
    | .ok lexemes => !(Grammar.ofLexemes lexemes).isOk
    | .error _ => false) = true := by decide +kernel
  cases scanned : tokenize "grammar g; a throws b : x = ( 'c' |" with
  | error rejection => rw [scanned] at known; cases known
  | ok lexemes =>
      rw [scanned] at known
      dsimp only at known
      cases rejected : Grammar.ofLexemes lexemes with
      | ok found => rw [rejected] at known; cases known
      | error diagnostic => exact ⟨lexemes, diagnostic, rfl, rejected, rejection_code rejected⟩

/-- A clause without its names is blamed, although the input only has to go on. -/
theorem incomplete_misreported : ∃ lexemes diagnostic,
    tokenize "grammar g; a throws" = .ok lexemes ∧
      Grammar.ofLexemes lexemes = .error diagnostic ∧
      Incomplete lexemes ∧ diagnostic.code = some .unexpectedToken := by
  have goesOn : ((tokenize "grammar g; a throws").toOption.any fun lexemes =>
      (Grammar.ofLexemes (significant lexemes ++
        [.name, .mark .colon, .mark .semicolon].map Terminal.lexeme)).isOk) = true := by
    decide +kernel
  have blamed : ((tokenize "grammar g; a throws").toOption.bind fun lexemes =>
      (Parse.grammar (significant lexemes)).setback?.map fun setback =>
        (Parse.diagnose (significant lexemes) setback).code) =
          some (some Code.unexpectedToken) := by
    decide +kernel
  cases scanned : tokenize "grammar g; a throws" with
  | error rejection => rw [scanned] at goesOn; cases goesOn
  | ok lexemes =>
      rw [scanned] at goesOn blamed
      simp only [Except.toOption, Option.any_some, Option.bind_some] at goesOn blamed
      obtain ⟨setback, stopped, code⟩ := Option.map_eq_some_iff.mp blamed
      refine ⟨lexemes, _, rfl, ofLexemes_eq_error.mpr ⟨setback, stopped, rfl⟩, ?_, code⟩
      cases accepted : Grammar.ofLexemes (significant lexemes ++
          [.name, .mark .colon, .mark .semicolon].map Terminal.lexeme) with
      | error other => rw [accepted] at goesOn; cases goesOn
      | ok found => exact ⟨_, found, List.cons_ne_nil _ _, accepted⟩

end Grammar

end Railroad
