import Railroad.Proofs.Grammar.Language
import Railroad.Proofs.Grammar.Neighbours
import Railroad.Proofs.Reading.Gathers

/-!
# Declaration blocks among tokens

What a grammar declares stands in blocks behind the keywords `options`, `tokens` and `channels`.
The options of a group are read and dropped; they are told by the parenthesis in front of their
keyword.  So what is declared can be gathered from the tokens alone.
-/

namespace Railroad

/-- The texts of the blocks behind a keyword, those of groups left out; `grouped` says whether a
parenthesis stands in front of the tokens. -/
def blocksOf (word : Keyword) : (grouped : Bool) → List Token → List String
  | false, .keyword found :: .action text :: rest =>
      if found = word then text :: blocksOf word false rest else blocksOf word false rest
  | _, token :: rest => blocksOf word (token == .mark .openParen) rest
  | _, [] => []

section Steps

variable {word : Keyword} {grouped : Bool} {token : Token}

@[simp]
theorem blocksOf_nil : blocksOf word grouped [] = [] := by cases grouped <;> rfl

theorem blocksOf_block (text : String) (rest : List Token) :
    blocksOf word false (.keyword word :: .action text :: rest) = text :: blocksOf word false rest := by
  rw [blocksOf, if_pos rfl]

theorem blocksOf_grouped (rest : List Token) :
    blocksOf word true (.keyword word :: rest) = blocksOf word false rest := by
  rw [blocksOf]
  · rfl
  · exact nofun

theorem blocksOf_other (other : token ≠ .keyword word) (rest : List Token) :
    blocksOf word grouped (token :: rest) = blocksOf word (token == .mark .openParen) rest := by
  rw [blocksOf.eq_def]
  split
  next found text behind same =>
    obtain ⟨rfl, rfl⟩ := List.cons.inj same
    have differs : found ≠ word := fun equal => other (congrArg _ equal)
    rw [if_neg differs, blocksOf]
    · rfl
    · exact nofun
  next same =>
    obtain ⟨rfl, rfl⟩ := List.cons.inj same
    rfl
  next none => cases none

theorem blocksOf_action (text : String) (rest : List Token) :
    blocksOf word grouped (.action text :: rest) = blocksOf word false rest :=
  blocksOf_other Token.noConfusion rest

/-- A keyword without a block behind it is passed over. -/
theorem blocksOf_alone {rest : List Token} (alone : ∀ text later, rest ≠ .action text :: later) :
    blocksOf word grouped (.keyword word :: rest) = blocksOf word false rest := by
  rw [blocksOf]
  · rfl
  · exact fun _ text later _ _ same => alone text later same

end Steps

/-- A keyword stands behind an opening parenthesis. -/
def Terminal.Shields (word : Keyword) (first second : Terminal) : Prop :=
  second = .keyword word → first = .mark .openParen

/-- Whether one form can follow another with the keyword only behind a parenthesis. -/
def Form.shields (word : Keyword) (first second : Form) : Bool :=
  !second.starts.contains (.keyword word) || first.finals.all (· == .mark .openParen)

/-- Whether the keyword stands inside the words of a form only behind a parenthesis. -/
def Form.isShielded (word : Keyword) : Form → Bool
  | empty | terminal _ => true
  | notion part => part != .file && part != .prequel && (part != .rule || word != .options)
  | both first second => first.isShielded word && second.isShielded word && first.shields word second
  | either first second => first.isShielded word && second.isShielded word
  | optional form => form.isShielded word
  | many form => form.isShielded word && form.shields word form

/-- The keywords of declaration blocks. -/
def declaring : List Keyword := [.options, .tokens, .channels]

theorem Notion.isShielded_form {word : Keyword} (known : word ∈ declaring) {notion : Notion}
    (shielded : (Form.notion notion).isShielded word = true) : notion.form.isShielded word = true := by
  simp only [declaring, List.mem_cons, List.not_mem_nil, or_false] at known
  rcases known with rfl | rfl | rfl <;> revert shielded <;> cases notion <;> decide

/-- The words of the form declare nothing by this keyword. -/
def Form.Quiet (word : Keyword) (form : Form) : Prop :=
  form.isShielded word = true ∧ .keyword word ∉ form.starts ∧ .mark .openParen ∉ form.finals

instance (word : Keyword) (form : Form) : Decidable (form.Quiet word) :=
  inferInstanceAs (Decidable (_ ∧ _))

namespace Derives

variable {word : Keyword} {form first second : Form} {letters front back : List Terminal}

theorem shields_between (head : Derives first front) (tail : Derives second back)
    (shields : first.shields word second = true) :
    ∀ last ∈ front.getLast?, ∀ next ∈ back.head?, last.Shields word next := by
  rintro last ends next starts rfl
  obtain ⟨others, rfl⟩ := List.head?_eq_some_iff.mp starts
  have inStarts := List.contains_iff_mem.mpr tail.head_mem_starts
  rw [Form.shields, inStarts, Bool.not_true, Bool.false_or] at shields
  exact eq_of_beq (List.all_eq_true.mp shields _ (head.last_mem_finals ends))

theorem shielded (known : word ∈ declaring) (derives : Derives form letters)
    (isShielded : form.isShielded word = true) : letters.IsChain (Terminal.Shields word) := by
  induction derives with
  | empty | absent | done => exact .nil
  | terminal only => exact .singleton only
  | notion _ ih => exact ih (Notion.isShielded_form known isShielded)
  | both head tail headIH tailIH =>
      simp only [Form.isShielded, Bool.and_eq_true] at isShielded
      obtain ⟨⟨shieldedHead, shieldedTail⟩, shields⟩ := isShielded
      exact List.isChain_append.mpr
        ⟨headIH shieldedHead, tailIH shieldedTail, shields_between head tail shields⟩
  | left _ ih =>
      simp only [Form.isShielded, Bool.and_eq_true] at isShielded
      exact ih isShielded.1
  | right _ ih =>
      simp only [Form.isShielded, Bool.and_eq_true] at isShielded
      exact ih isShielded.2
  | present _ ih => exact ih isShielded
  | again head tail headIH tailIH =>
      have later := tailIH isShielded
      simp only [Form.isShielded, Bool.and_eq_true] at isShielded
      exact List.isChain_append.mpr ⟨headIH isShielded.1, later, shields_between head tail isShielded.2⟩

end Derives

/-- Where every keyword stands behind a parenthesis, only what is seen at the end counts. -/
theorem blocksOf_shielded {word : Keyword} {grouped : Bool} {taken : List Lexeme}
    (shielded : (terminals taken).IsChain (Terminal.Shields word))
    (starts : grouped = false → .keyword word ∉ (terminals taken).head?)
    (ends : .mark .openParen ∉ (terminals taken).getLast?) (some : taken ≠ []) (rest : List Token) :
    blocksOf word grouped (tokensOf taken ++ rest) = blocksOf word false rest := by
  induction taken generalizing grouped with
  | nil => exact absurd rfl some
  | cons lexeme others ih =>
      have here : blocksOf word grouped (tokensOf (lexeme :: others) ++ rest) =
          blocksOf word (lexeme.token == .mark .openParen) (tokensOf others ++ rest) := by
        by_cases key : lexeme.token = .keyword word
        · have inGroup : grouped = true := by
            rw [← Bool.not_eq_false]
            exact fun plain => starts plain (congrArg Option.some (Token.terminal_eq_keyword.mpr key))
          rw [tokensOf, List.map_cons, List.cons_append, key, inGroup, blocksOf_grouped]
          rfl
        · exact blocksOf_other key _
      rw [here]
      cases others with
      | nil =>
          have closed : (lexeme.token == .mark .openParen) = false := by
            rw [beq_eq_false_iff_ne]
            exact fun opens => ends (congrArg Option.some (Token.terminal_eq_mark.mpr opens))
          rw [closed]
          rfl
      | cons next others =>
          obtain ⟨shields, later⟩ := List.isChain_cons_cons.mp shielded
          refine ih later (fun plain begins => ?_) ?_ (List.cons_ne_nil _ _)
          · have opens := Token.terminal_eq_mark.mp (shields (Option.some.inj begins))
            rw [opens] at plain
            cases plain
          · rwa [terminals_cons, terminals_cons, List.getLast?_cons_cons] at ends

theorem Derives.blocksOf_quiet {word : Keyword} {form : Form} {taken : List Lexeme}
    (known : word ∈ declaring) (derives : Derives form (terminals taken)) (quiet : form.Quiet word)
    (rest : List Token) :
    blocksOf word false (tokensOf taken ++ rest) = blocksOf word false rest := by
  obtain ⟨isShielded, starts, finals⟩ := quiet
  by_cases some : taken = []
  · subst some
    rfl
  · refine blocksOf_shielded (derives.shielded known isShielded) (fun _ begins => ?_)
      (fun ends => finals (derives.last_mem_finals ends)) some rest
    obtain ⟨others, split⟩ := List.head?_eq_some_iff.mp begins
    rw [split] at derives
    exact starts derives.head_mem_starts

/-- The entries of the blocks among some lexemes, whatever follows them. -/
def Declares {γ : Type} (word : Keyword) (entries : String → List γ) (taken : List Lexeme)
    (own : List γ) : Prop :=
  ∀ rest, (blocksOf word false (tokensOf taken ++ rest)).flatMap entries =
    own ++ (blocksOf word false rest).flatMap entries

namespace Reader

variable {α β γ : Type} {word : Keyword} {entries : String → List γ} {reader : Reader α} {form : Form}

instance : Additive (Declares word entries) where
  nil _ := rfl
  append head tail rest := by rw [tokensOf_append, List.append_assoc, head, tail, List.append_assoc]

/-- A part by which nothing is declared. -/
theorem Sound.undeclared (sound : Sound reader form) (known : word ∈ declaring)
    (quiet : form.Quiet word) : Gathers (Declares word entries) reader [] fun _ => [] := by
  refine .of_yields (sound.mono fun taken _ derives rest => ?_)
  rw [derives.blocksOf_quiet known quiet, List.nil_append]

theorem Gathers.passed {next : α → Reader β} {before : List γ} {whole : β → List γ}
    (sound : Sound reader form) (known : word ∈ declaring) (quiet : form.Quiet word)
    (tail : ∀ value, Gathers (Declares word entries) (next value) before whole) :
    Gathers (Declares word entries) (reader.andThen next) before whole :=
  (sound.undeclared known quiet).andThen fun value => (List.append_nil before).symm ▸ tail value

end Reader

namespace Parse

open Reader

theorem action_declares {γ : Type} (word : Keyword) (entries : String → List γ) :
    Gathers (Declares word entries)
      ((keyword word).andThen fun _ => (committed actionText).andThen fun body =>
        succeed (entries body)) [] id := by
  have block : Yields actionText fun taken body => ∃ lexeme, taken = [lexeme] ∧
      lexeme.token = .action body := by
    refine (Yields.accept _ _).mono fun taken body => ?_
    rintro ⟨lexeme, rfl, selected⟩
    refine ⟨lexeme, rfl, ?_⟩
    split at selected
    · cases selected
      assumption
    · cases selected
  refine .of_yields ((Yields.andThen (Yields.token _) fun _ =>
    Yields.andThen block.committed fun body => Yields.succeed (entries body)).mono
      fun taken found => ?_)
  rintro ⟨_, _, _, rfl, ⟨key, rfl, isKey⟩, body, _, _, rfl, ⟨block, rfl, isBlock⟩, rfl, rfl⟩ rest
  simp only [List.append_nil, tokensOf, List.map_cons, List.map_nil,
    List.cons_append, List.nil_append, isKey, isBlock, blocksOf_block, List.flatMap_cons, id_eq]

theorem optionsBlock_declares :
    Gathers (Declares .options Declarations.settings) optionsBlock [] fun settings => settings :=
  action_declares .options Declarations.settings

theorem nameBlock_declares (word : Keyword) :
    Gathers (Declares word Declarations.names) (nameBlock word) [] fun names => names :=
  action_declares word Declarations.names

/-- Imports and actions declare nothing by these keywords, and blocks what they hold. -/
theorem prequel_declares {γ : Type} {word : Keyword} {entries : String → List γ}
    {target : Prequel → List γ} (known : word ∈ declaring)
    (options : Gathers (Declares word entries) optionsBlock [] fun found => target (.options found))
    (tokens : Gathers (Declares word entries) (nameBlock .tokens) []
      fun found => target (.tokens found))
    (channels : Gathers (Declares word entries) (nameBlock .channels) []
      fun found => target (.channels found))
    (imports : ∀ found, [] = target (.imports found)) (action : ∀ found, [] = target (.action found)) :
    Gathers (Declares word entries) prequel [] target := by
  have quiet : ∀ word ∈ declaring, (Form.notion .namedAction).Quiet word ∧ (Form.sequence
      [.keyword .importing, .separated (.notion .delegate) (.mark .comma), .mark .semicolon]).Quiet
        word := by
    decide
  have importing : Gathers (Declares word entries) importList [] fun _ => [] :=
    (importList_decides).sound.undeclared known (quiet word known).2
  have acting : Gathers (Declares word entries) namedAction [] fun _ => [] :=
    (namedAction_decides).sound.undeclared known (quiet word known).1
  exact (options.map fun _ => rfl).orElse ((importing.map imports).orElse
    ((tokens.map fun _ => rfl).orElse ((channels.map fun _ => rfl).orElse (acting.map action))))

theorem prequel_options :
    Gathers (Declares .options Declarations.settings) prequel [] Prequel.optionSettings :=
  prequel_declares (by decide) (optionsBlock_declares)
    ((nameBlock_decides .tokens).sound.undeclared (by decide) (by decide))
    ((nameBlock_decides .channels).sound.undeclared (by decide) (by decide))
    (fun _ => rfl) fun _ => rfl

theorem prequel_tokens :
    Gathers (Declares .tokens Declarations.names) prequel [] Prequel.tokenNames :=
  prequel_declares (by decide) ((optionsBlock_decides).sound.undeclared (by decide) (by decide))
    (nameBlock_declares .tokens)
    ((nameBlock_decides .channels).sound.undeclared (by decide) (by decide))
    (fun _ => rfl) fun _ => rfl

theorem prequel_channels :
    Gathers (Declares .channels Declarations.names) prequel [] Prequel.channelNames :=
  prequel_declares (by decide) ((optionsBlock_decides).sound.undeclared (by decide) (by decide))
    ((nameBlock_decides .tokens).sound.undeclared (by decide) (by decide))
    (nameBlock_declares .channels) (fun _ => rfl) fun _ => rfl

theorem rulePart_options :
    Gathers (Declares .options Declarations.settings) rulePart [] RulePart.settings := by
  have acting : Gathers (Declares .options Declarations.settings) namedAction [] fun _ => [] :=
    (namedAction_decides).sound.undeclared (by decide) (by decide)
  exact (optionsBlock_declares.map fun _ => rfl).orElse (acting.map fun _ => rfl)

theorem rule_options : Gathers (Declares .options Declarations.settings) rule [] Rule.options :=
  .passed (modifier_decides).sound.many (by decide) (by decide) fun _ =>
    .passed ((identifier_decides).sound.expecting _) (by decide) (by decide) fun _ =>
    .passed (bracketed_decides).sound.optional (by decide) (by decide) fun _ =>
    .passed (bracketedClause_decides .returns).sound.optional (by decide) (by decide) fun _ =>
    .passed (throws_decides).sound.optional (by decide) (by decide) fun _ =>
    .passed (bracketedClause_decides .locals).sound.optional (by decide) (by decide) fun _ =>
    (rulePart_options).many.andThen fun _ =>
    .passed (mark_decides .colon).sound (by decide) (by decide) fun _ =>
    .passed (block_recognizes).sound (by decide) (by decide) fun _ =>
    .passed ((mark_decides .semicolon).sound.expecting _) (by decide) (by decide) fun _ =>
    .passed (handler_decides).sound.many (by decide) (by decide) fun _ => .succeed rfl

end Parse

end Railroad
