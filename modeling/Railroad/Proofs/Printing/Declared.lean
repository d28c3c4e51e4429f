import Railroad.Proofs.Printing.Kept
import Railroad.Proofs.Printing.Laid
import Railroad.Proofs.Token.Slices

/-!
# Rule bodies in a source and in print

The body of a declared rule is found in the lexemes of its source by the place of the rule's name:
it reaches from the next colon to the next semicolon.  The written form of the body that has been
read consists of the tokens kept of it, in the same order.
-/

namespace Railroad

/-- The lexemes before and behind the first one that meets a condition. -/
def parted (meets : Lexeme → Bool) : List Lexeme → Option (List Lexeme × List Lexeme)
  | [] => none
  | lexeme :: rest =>
      if meets lexeme then some ([], rest)
      else (parted meets rest).map fun (before, behind) => (lexeme :: before, behind)

theorem parted_append {meets : Lexeme → Bool} {before : List Lexeme} {lexeme : Lexeme}
    (free : ∀ other ∈ before, meets other = false) (met : meets lexeme = true)
    (behind : List Lexeme) : parted meets (before ++ lexeme :: behind) = some (before, behind) := by
  induction before with
  | nil => rw [List.nil_append, parted, if_pos met]
  | cons first others ih =>
      have notFirst := free first (List.mem_cons_self ..)
      have found := ih fun other member => free other (List.mem_cons_of_mem _ member)
      rw [List.cons_append, parted, notFirst, if_neg Bool.false_ne_true, found]
      rfl

theorem mem_of_parted {meets : Lexeme → Bool} {lexemes before behind : List Lexeme}
    (found : parted meets lexemes = some (before, behind)) :
    ∀ lexeme ∈ before ++ behind, lexeme ∈ lexemes := by
  induction lexemes generalizing before with
  | nil => cases found
  | cons first rest ih =>
      rw [parted] at found
      split at found
      · cases found
        exact fun lexeme member => List.mem_cons_of_mem _ member
      · obtain ⟨⟨others, later⟩, foundLater, same⟩ := Option.map_eq_some_iff.mp found
        cases same
        intro lexeme member
        rcases List.mem_cons.mp member with rfl | inside
        · exact List.mem_cons_self ..
        · exact List.mem_cons_of_mem _ (ih foundLater lexeme inside)

/-- The body of the declaration whose lexemes behind the name are given. -/
def bodyBehind? (declaration : List Lexeme) : Option (List Lexeme) := do
  let (_, behind) ← parted (fun lexeme => lexeme.token == .mark .colon) declaration
  let (body, _) ← parted (fun lexeme => lexeme.token == .mark .semicolon) behind
  pure body

/-- The lexemes between the colon and the semicolon of the rule whose name stands there. -/
def declaredBody? (name : Located String) (lexemes : List Lexeme) : Option (List Lexeme) := do
  let (_, declaration) ← parted (fun lexeme => lexeme.span == name.span) lexemes
  bodyBehind? declaration

theorem mem_of_declaredBody {name : Located String} {lexemes body : List Lexeme}
    (found : declaredBody? name lexemes = some body) : ∀ lexeme ∈ body, lexeme ∈ lexemes := by
  simp only [declaredBody?, bodyBehind?, Option.bind_eq_bind, Option.bind_eq_some_iff,
    Option.pure_def, Option.some.injEq] at found
  obtain ⟨⟨_, declaration⟩, named, ⟨_, behind⟩, colon, ⟨_, after⟩, semicolon, rfl⟩ := found
  intro lexeme member
  have inBehind := mem_of_parted semicolon lexeme (List.mem_append_left _ member)
  have inDeclaration := mem_of_parted colon lexeme (List.mem_append_right _ inBehind)
  exact mem_of_parted named lexeme (List.mem_append_right _ inDeclaration)

theorem tokenize_places {source : String} {lexemes : List Lexeme}
    (scanned : tokenize source = .ok lexemes) :
    (significant lexemes).Pairwise fun first second => first.span ≠ second.span :=
  (tokenize_distinct scanned).filter _

theorem significant_shaped {source : String} {lexemes : List Lexeme}
    (scanned : tokenize source = .ok lexemes) :
    ∀ lexeme ∈ significant lexemes, lexeme.token.Shaped :=
  fun lexeme member => tokenize_shaped scanned lexeme (List.mem_filter.mp member).1

namespace Parse

open Reader

/-- The lexemes from some mark on, which is not among those before it. -/
def Behind {α : Type} (sign : Mark) (spelled : List Lexeme → α → Prop) (taken : List Lexeme)
    (value : α) : Prop :=
  ∃ before lexeme behind, taken = before ++ lexeme :: behind ∧
    (∀ other ∈ before, (other.token == .mark sign) = false) ∧ lexeme.token = .mark sign ∧
      spelled behind value

namespace Behind

variable {α β : Type} {sign : Mark} {spelled : List Lexeme → β → Prop}

theorem not_mark {form : Form} {word : List Lexeme} (derives : Derives form (terminals word))
    (free : .mark sign ∉ form.letters) : ∀ lexeme ∈ word, (lexeme.token == .mark sign) = false := by
  intro lexeme member
  have letter := derives.mem_letters _ (List.mem_map_of_mem member)
  rw [beq_eq_false_iff_ne]
  intro same
  exact free (Token.terminal_eq_mark.mpr same ▸ letter)

theorem skip {reader : Reader α} {form : Form} {next : α → Reader β} (sound : Sound reader form)
    (free : .mark sign ∉ form.letters) (later : ∀ value, Yields (next value) (Behind sign spelled)) :
    Yields (reader.andThen next) (Behind sign spelled) := by
  refine (Yields.andThen sound later).mono fun taken value => ?_
  rintro ⟨_, front, _, rfl, derives, before, lexeme, behind, rfl, others, same, spells⟩
  refine ⟨front ++ before, lexeme, behind, by rw [List.append_assoc], ?_, same, spells⟩
  exact List.forall_mem_append.mpr ⟨not_mark derives free, others⟩

theorem here {reader : Reader Unit} {next : Unit → Reader β}
    (sign_ : Yields reader fun taken _ => ∃ lexeme, taken = [lexeme] ∧ lexeme.token = .mark sign)
    (later : Yields (next ()) spelled) : Yields (reader.andThen next) (Behind sign spelled) := by
  refine (Yields.andThen sign_ fun _ => later).mono fun taken value => ?_
  rintro ⟨_, _, behind, rfl, ⟨lexeme, rfl, same⟩, spells⟩
  exact ⟨[], lexeme, behind, rfl, List.forall_mem_nil _, same, spells⟩

theorem parted {taken : List Lexeme} {value : β} (stands : Behind sign spelled taken value) :
    ∃ before behind, spelled behind value ∧ ∀ tail,
      Railroad.parted (fun lexeme => lexeme.token == .mark sign) (taken ++ tail) =
        some (before, behind ++ tail) := by
  obtain ⟨before, lexeme, behind, rfl, others, same, spells⟩ := stands
  refine ⟨before, behind, spells, fun tail => ?_⟩
  rw [List.append_assoc]
  exact parted_append others (beq_iff_eq.mpr same) _

end Behind

/-- The lexemes declare the rule; behind its name its body is found, and kept. -/
def Declares (taken : List Lexeme) (rule : Rule) : Prop :=
  ∃ before name behind body, taken = before ++ name :: behind ∧ name.span = rule.name.span ∧
    (∀ tail, bodyBehind? (behind ++ tail) = some body) ∧ Keeps body (blockTokens rule.body)

/-- Behind the colon of the rule of this name, its body is found, and kept. -/
def Bodied (name : Located String) (taken : List Lexeme) (rule : Rule) : Prop :=
  rule.name = name ∧ ∃ body, Keeps body (blockTokens rule.body) ∧ ∀ tail, ∃ after,
    parted (fun lexeme => lexeme.token == .mark .semicolon) (taken ++ tail) = some (body, after)

theorem body_bodied {name : Located String} {finish : Block → List Handler → Rule}
    (named : ∀ found handlers, (finish found handlers).name = name)
    (holds : ∀ found handlers, (finish found handlers).body = found) :
    Yields ((mark .colon).andThen fun _ => block.andThen fun found =>
      ((mark .semicolon).expecting "end of rule").andThen fun _ =>
        Reader.andThen (many handler) fun handlers => Reader.succeed (finish found handlers))
      (Behind .colon (Bodied name)) := by
  have body : Yields block fun taken found =>
      Derives (.notion .alternatives) (terminals taken) ∧ Keeps taken (blockTokens found) :=
    (block_reads).1.both (block_reads).2.keeps
  refine Behind.here (Yields.token _) ((Yields.andThen body fun found =>
    Yields.andThen ((Yields.token _).expecting _) fun _ =>
      Yields.andThen (handler_decides).sound.many fun handlers => Yields.succeed _).mono
        fun taken rule => ?_)
  rintro ⟨found, front, _, rfl, ⟨derives, keeps⟩, _, _, _, rfl, ⟨sign, rfl, same⟩, handlers,
    after, _, rfl, -, rfl, rfl⟩
  refine ⟨named found handlers, front, (holds found handlers).symm ▸ keeps, fun tail =>
    ⟨after ++ [] ++ tail, ?_⟩⟩
  rw [List.append_assoc]
  exact parted_append (Behind.not_mark derives (by decide)) (beq_iff_eq.mpr same) _

theorem rule_declares : Yields rule Declares := by
  have place : Yields identifier fun taken name =>
      ∃ lexeme, taken = [lexeme] ∧ lexeme.span = name.span :=
    (identifier_yields).mono fun _ _ ⟨lexeme, single, same, _⟩ => ⟨lexeme, single, same⟩
  have read : Yields rule _ :=
    Yields.andThen (modifier_decides).sound.many fun modifiers =>
      Yields.andThen (place.expecting _) fun name =>
        Behind.skip (bracketed_decides).sound.optional (by decide) fun arguments =>
        Behind.skip (bracketedClause_decides .returns).sound.optional (by decide) fun returns =>
        Behind.skip (throws_decides).sound.optional (by decide) fun throws =>
        Behind.skip (bracketedClause_decides .locals).sound.optional (by decide) fun locals =>
        Behind.skip (rulePart_decides).sound.many (by decide) fun parts =>
        body_bodied (fun _ _ => rfl) fun _ _ => rfl
  refine read.mono fun taken rule => ?_
  rintro ⟨_, before, _, rfl, -, name, _, rest, rfl, ⟨lexeme, rfl, place⟩, stands⟩
  obtain ⟨_, behind, ⟨rfl, body, keeps, found⟩, colon⟩ := stands.parted
  refine ⟨before, lexeme, rest, body, rfl, place, fun tail => ?_, keeps⟩
  obtain ⟨after, semicolon⟩ := found tail
  simp only [bodyBehind?, colon tail, semicolon, Option.bind_eq_bind, Option.bind_some, Option.pure_def]

/-- What is declared in a part of a file is found in the file by the place of its name. -/
theorem Declares.found {taken front back : List Lexeme} {rule : Rule} (declares : Declares taken rule)
    (places : (front ++ taken ++ back).Pairwise fun first second => first.span ≠ second.span) :
    ∃ body, declaredBody? rule.name (front ++ taken ++ back) = some body ∧
      Keeps body (blockTokens rule.body) := by
  obtain ⟨before, name, behind, body, rfl, place, found, keeps⟩ := declares
  refine ⟨body, ?_, keeps⟩
  have split : front ++ (before ++ name :: behind) ++ back =
      (front ++ before) ++ name :: (behind ++ back) := by
    simp only [List.append_assoc, List.cons_append]
  rw [split] at places ⊢
  have others : ∀ lexeme ∈ front ++ before, (lexeme.span == rule.name.span) = false := by
    intro lexeme member
    rw [← place, beq_eq_false_iff_ne]
    exact (List.pairwise_append.mp places).2.2 lexeme member name (List.mem_cons_self ..)
  rw [declaredBody?, parted_append others (beq_iff_eq.mpr place)]
  exact found back

theorem fileSection_declares : Yields fileSection fun taken section_ =>
    taken ≠ [] ∧ ∀ rule, section_ = .rule rule → Declares taken rule := by
  have mode : Yields (modeDeclaration.map Section.mode) fun taken section_ =>
      ∀ rule, section_ = .rule rule → Declares taken rule := by
    refine (Yields.map (modeDeclaration_decides).sound _).mono fun taken found => ?_
    rintro ⟨_, -, rfl⟩ rule same
    cases same
  have declared : Yields (committed (rule.map Section.rule)) fun taken section_ =>
      ∀ rule, section_ = .rule rule → Declares taken rule := by
    refine ((rule_declares).map _).committed.mono fun taken found => ?_
    rintro ⟨value, declares, rfl⟩ rule same
    cases same
    exact declares
  exact (fileSection_takes).both (mode.orElse declared)

/-- The lexemes of every rule stand somewhere in those of the file. -/
theorem grammar_declares {lexemes rest : List Lexeme} {found : Grammar}
    (read : grammar lexemes = .done found rest) : ∀ rule ∈ found.rules,
      ∃ front taken back declared, lexemes = front ++ taken ++ back ∧ Declares taken declared ∧
        rule = { declared with mode := rule.mode } := by
  obtain ⟨_, _, readHeader, read⟩ := andThen_done read
  obtain ⟨_, _, readPrequels, read⟩ := andThen_done read
  obtain ⟨sections, _, readSections, last⟩ := andThen_done read
  cases last
  obtain ⟨front, rfl, -⟩ := (header_recognizes).sound readHeader
  obtain ⟨middle, rfl, -⟩ := (prequel_decides).sound.many readPrequels
  obtain ⟨_, rfl, each⟩ := (fileSection_declares).exhaust (fun _ _ found => found.1) readSections
  intro rule listed
  obtain ⟨declared, member, same⟩ := mem_rulesInModes listed
  obtain ⟨before, taken, back, rfl, -, declares⟩ := each.of_mem member
  refine ⟨front ++ (middle ++ before), taken, back ++ rest, declared, ?_, declares _ rfl, same⟩
  simp only [List.append_assoc]

end Parse

/-- Only what has been there is kept. -/
theorem mem_of_mem_keptFrom {passing : Passing} {tokens : List Token} :
    ∀ token ∈ keptFrom passing tokens, token ∈ tokens := by
  fun_induction keptFrom passing tokens with
  | case1 => exact fun token member => member
  | case2 rest ih => exact fun token member => List.mem_cons_of_mem _ (ih token member)
  | case3 rest ih =>
      intro token member
      rcases List.mem_cons.mp member with rfl | later
      · exact List.mem_cons_self ..
      · exact List.mem_cons_of_mem _ (ih token later)
  | case4 first rest _ _ ih =>
      intro token member
      rcases List.mem_cons.mp member with rfl | later
      · exact List.mem_cons_self ..
      · exact List.mem_cons_of_mem _ (ih token later)
  | case5 passing first rest _ _ _ ih => exact fun token member => List.mem_cons_of_mem _ (ih token member)

theorem Keeps.tokens {taken : List Lexeme} {own : List Token} (keeps : Keeps taken own)
    (shaped : ∀ lexeme ∈ taken, lexeme.token.Shaped) : kept (tokensOf taken) = own := by
  have whole := keeps shaped []
  have none : kept [] = [] := rfl
  rwa [List.append_nil, none, List.append_nil] at whole

/-- The kept tokens of a body in a source are those of the tree that has been read. -/
theorem Grammar.body_tokens {source : String} {lexemes rest : List Lexeme} {found : Grammar}
    (scanned : tokenize source = .ok lexemes)
    (read : Parse.grammar (significant lexemes) = .done found rest) {rule : Rule}
    (listed : rule ∈ found.rules) : ∃ body, declaredBody? rule.name (significant lexemes) = some body ∧
      kept (tokensOf body) = blockTokens rule.body ∧
        ∀ token ∈ blockTokens rule.body, token.Shaped ∧ token.isTrivia = false := by
  obtain ⟨front, taken, back, declared, split, declares, same⟩ :=
    Parse.grammar_declares read rule listed
  have named : rule.name = declared.name := by rw [same]
  have bodied : rule.body = declared.body := by rw [same]
  have places := tokenize_places scanned
  rw [split] at places
  obtain ⟨body, found, keeps⟩ := declares.found places
  rw [← split, ← named] at found
  have known : ∀ lexeme ∈ body, lexeme.token.Shaped ∧ lexeme.token.isTrivia = false := by
    intro lexeme member
    have inside := mem_of_declaredBody found lexeme member
    refine ⟨significant_shaped scanned lexeme inside, ?_⟩
    simpa using (List.mem_filter.mp inside).2
  have tokens := keeps.tokens fun lexeme member => (known lexeme member).1
  rw [← bodied] at tokens
  refine ⟨body, found, tokens, fun token member => ?_⟩
  rw [← tokens] at member
  obtain ⟨lexeme, listed, rfl⟩ := List.mem_map.mp (mem_of_mem_keptFrom token member)
  exact known lexeme listed

/-- No kept token of a rule body is lost, doubled or moved: they are what the written form of the
body consists of. -/
theorem Grammar.body_kept {source : String} {found : Grammar}
    (parsed : Grammar.parse source = .ok found) : ∃ lexemes, tokenize source = .ok lexemes ∧
      ∀ rule ∈ found.rules, ∃ body, declaredBody? rule.name (significant lexemes) = some body ∧
        Laid [] (kept (tokensOf body)) (blockText rule.body).toList := by
  obtain ⟨lexemes, rest, scanned, read⟩ := Grammar.parse_eq_ok.mp parsed
  refine ⟨lexemes, scanned, fun rule listed => ?_⟩
  obtain ⟨body, found, tokens, known⟩ := Grammar.body_tokens scanned read listed
  refine ⟨body, found, ?_⟩
  rw [tokens]
  exact block_spells (fun token member => (known token member).1) [] .nil

theorem Grammar.body_kept_group : ∃ found lexemes,
    Grammar.parse "grammar g; a : x+=b<c=d> (@e \x7b\x7d : ~'f'..'g' | ) # h ;" = .ok found ∧
      tokenize "grammar g; a : x+=b<c=d> (@e \x7b\x7d : ~'f'..'g' | ) # h ;" = .ok lexemes ∧
        ∀ rule ∈ found.rules, ∃ body, declaredBody? rule.name (significant lexemes) = some body ∧
          Laid [] (kept (tokensOf body)) (blockText rule.body).toList := by
  have ok : (Grammar.parse "grammar g; a : x+=b<c=d> (@e \x7b\x7d : ~'f'..'g' | ) # h ;").isOk = true := by
    decide +kernel
  cases parsed : Grammar.parse "grammar g; a : x+=b<c=d> (@e \x7b\x7d : ~'f'..'g' | ) # h ;" with
  | error rejection => rw [parsed] at ok; cases ok
  | ok found =>
      obtain ⟨lexemes, scanned, bodies⟩ := Grammar.body_kept parsed
      exact ⟨found, lexemes, rfl, scanned, bodies⟩

end Railroad
