import Railroad.Grammar.Printer
import Railroad.Proofs.Printing.Tokens

/-!
# How trees are laid out

The written form of a tree consists of the texts of its tokens in their order, with blanks between
some of them.  Where two tokens stand side by side, the first does not run into the second.
-/

namespace Railroad

open Scan (wordToken isWordCharacter)

/-- Whether the token is over where this character follows.  Quoted forms end by themselves. -/
def Token.stopsAt : Token → Char → Bool
  | keyword _, c | tokenName _, c | ruleName _, c => !isWordCharacter c
  | integer _, c => !c.isDigit
  | mark .dot, c => c != '.'
  | mark .plus, c => c != '='
  | mark .colon, c => c != ':'
  | _, _ => true

/-- The token does not go on in the text behind it. -/
def Token.EndsBefore (token : Token) (next : List Char) : Prop :=
  ∀ c ∈ next.head?, token.stopsAt c = true

/-- Characters that every token stops at. -/
def looseCharacters : List Char := [' ', ')', ',', '?', '*', '+']

def Loose (text : List Char) : Prop := ∀ c ∈ text.head?, c ∈ looseCharacters

theorem Loose.nil : Loose [] := by
  intro c none
  cases none

theorem Loose.cons {c : Char} (known : c ∈ looseCharacters) (rest : List Char) :
    Loose (c :: rest) := by
  intro first same
  cases same
  exact known

theorem Token.EndsBefore.of_loose {text : List Char} (loose : Loose text) (token : Token) :
    token.EndsBefore text := by
  have stops : looseCharacters.all token.stopsAt = true := by
    cases token with
    | mark sign => cases sign <;> decide
    | keyword | tokenName | ruleName =>
        have ofWord : (looseCharacters.all fun c => !isWordCharacter c) = true := by decide
        exact ofWord
    | integer =>
        have ofNumber : (looseCharacters.all fun c => !c.isDigit) = true := by decide
        exact ofNumber
    | _ => rfl
  exact fun c next => List.all_eq_true.mp stops c (loose c next)

theorem Token.EndsBefore.of_word {c : Char} {next rest : List Char} (starts : next = c :: rest)
    (notWord : isWordCharacter c = false) (word : String) : (wordToken word).EndsBefore next := by
  subst starts
  intro first same
  cases same
  have stops : (!isWordCharacter c) = true := by rw [notWord]; rfl
  unfold wordToken
  split
  · exact stops
  · split <;> exact stops

/-- The text consists of the tokens and of blanks, in front of the text `tail`. -/
inductive Laid (tail : List Char) : List Token → List Char → Prop where
  | nil : Laid tail [] []
  | blank {tokens : List Token} {text : List Char} (later : Laid tail tokens text) :
      Laid tail tokens (' ' :: text)
  | token {token : Token} {tokens : List Token} {text : List Char}
      (ends : token.EndsBefore (text ++ tail)) (later : Laid tail tokens text) :
      Laid tail (token :: tokens) (token.text.toList ++ text)

namespace Laid

variable {tail first second : List Char} {tokens others : List Token}

theorem append (head : Laid (second ++ tail) tokens first) (later : Laid tail others second) :
    Laid tail (tokens ++ others) (first ++ second) := by
  induction head with
  | nil => exact later
  | blank _ ih => exact .blank ih
  | @token token rest text ends _ ih =>
      rw [List.append_assoc]
      refine .token ?_ ih
      rw [List.append_assoc]
      exact ends

theorem single {token : Token} (ends : token.EndsBefore tail) :
    Laid tail [token] token.text.toList := by
  have laid : Laid tail [token] (token.text.toList ++ []) := .token ends .nil
  rwa [List.append_nil] at laid

/-- A token in front of what is laid out. -/
theorem cons {token : Token} {text : String} (spelled : token.text = text)
    (ends : token.EndsBefore (first ++ tail)) (later : Laid tail tokens first) :
    Laid tail (token :: tokens) (text.toList ++ first) :=
  spelled ▸ .token ends later

end Laid

/-- The text consists of the tokens, wherever it is not run into. -/
def Spells (tokens : List Token) (text : String) : Prop :=
  ∀ tail, Loose tail → Laid tail tokens text.toList

theorem Spells.single {token : Token} {text : String} (spelled : token.text = text) :
    Spells [token] text := by
  intro tail loose
  subst spelled
  exact .single (.of_loose loose token)

/-- Texts with a separator that spells some tokens between them. -/
theorem Spells.list {α : Type} {tokens : α → List Token} {text : α → String} {signs : List Token}
    {separator : String} (apart : ∀ rest, Loose (separator.toList ++ rest))
    (between : ∀ tail, Laid tail signs separator.toList) (first : α) (rest : List α)
    (each : ∀ item ∈ first :: rest, Spells (tokens item) (text item)) :
    Spells (tokens first ++ rest.flatMap fun item => signs ++ tokens item)
      (separator.intercalate ((first :: rest).map text)) := by
  intro tail loose
  have head := each first (List.mem_cons_self ..)
  induction rest generalizing first with
  | nil =>
      rw [List.flatMap_nil, List.append_nil]
      exact head tail loose
  | cons second others ih =>
      have later := ih second (fun item member => each item (List.mem_cons_of_mem _ member))
        (each second (List.mem_cons_of_mem _ (List.mem_cons_self ..)))
      have here := (between _).append later
      simp only [List.map_cons, String.intercalate_cons_cons, String.toList_append,
        List.flatMap_cons, List.append_assoc]
      refine (head _ ?_).append ?_
      · rw [List.append_assoc]
        exact apart _
      · simpa only [List.map_cons, List.append_assoc] using here

theorem Spells.nil : Spells [] "" := fun _ _ => .nil

theorem Spells.joinedBy {α : Type} {tokens : α → List Token} {text : α → String} {sign : Token}
    {separator : String} (apart : ∀ rest, Loose (separator.toList ++ rest))
    (between : ∀ tail, Laid tail [sign] separator.toList) (items : List α)
    (each : ∀ item ∈ items, Spells (tokens item) (text item)) :
    Spells (Railroad.joinedBy sign (items.map tokens)) (separator.intercalate (items.map text)) := by
  cases items with
  | nil => exact .nil
  | cons first rest =>
      have list : Spells (tokens first ++ rest.flatMap fun item => [sign] ++ tokens item)
          (separator.intercalate ((first :: rest).map text)) := .list apart between first rest each
      simpa only [Railroad.joinedBy, List.map_cons, List.flatMap_map, List.singleton_append] using list

theorem Spells.joinedByBar {α : Type} {tokens : α → List Token} {text : α → String}
    (items : List α) (each : ∀ item ∈ items, Spells (tokens item) (text item)) :
    Spells (Railroad.joinedBy (.mark .bar) (items.map tokens)) (" | ".intercalate (items.map text)) :=
  have apart (rest : List Char) : Loose (" | ".toList ++ rest) := .cons (by decide) _
  .joinedBy apart (fun _ => .blank (.token (fun _ _ => rfl) (.blank .nil))) items each

/-- What is laid out on its own may stand in front of more. -/
theorem Spells.append {tokens others : List Token} {text : String} {tail second : List Char}
    (spells : Spells tokens text) (loose : Loose (second ++ tail)) (later : Laid tail others second) :
    Laid tail (tokens ++ others) (text.toList ++ second) :=
  (spells _ loose).append later

theorem Suffix.text_loose (suffix : Suffix) (rest : List Char) :
    Loose (suffix.text.toList ++ rest) := by
  rcases suffix with ⟨repeats, greedy⟩
  cases repeats <;> cases greedy <;> exact .cons (by decide) _

theorem Suffix.spells (suffix : Suffix) : Spells suffix.tokens suffix.text := by
  intro tail loose
  rcases suffix with ⟨repeats, greedy⟩
  cases repeats <;> cases greedy <;>
    first
    | exact .single (.of_loose loose _)
    | exact .token (.of_loose (.cons (by decide) _) _) (.single (.of_loose loose _))

theorem ElementLabel.laid (label : ElementLabel) (tail : List Char) :
    Laid tail label.tokens label.text.toList := by
  rcases label with ⟨name, additive⟩
  cases additive with
  | false =>
      have text : ElementLabel.text ⟨name, false⟩ = name ++ "=" := rfl
      rw [text, String.toList_append]
      exact .cons (Scan.wordToken_text name) (.of_word rfl (by decide) name) (.single fun _ _ => rfl)
  | true =>
      have text : ElementLabel.text ⟨name, true⟩ = name ++ "+=" := rfl
      rw [text, String.toList_append]
      exact .cons (Scan.wordToken_text name) (.of_word rfl (by decide) name) (.single fun _ _ => rfl)

theorem Command.spells (command : Command) : Spells command.tokens command.text := by
  intro tail loose
  rcases command with ⟨name, argument⟩
  cases argument with
  | none => exact Spells.single (Scan.wordToken_text name) tail loose
  | some argument =>
      simp only [Command.tokens, Command.text, String.toList_append, List.append_assoc]
      refine .cons (Scan.wordToken_text name) (.of_word (c := '(') rfl (by decide) _)
        (.token (fun _ _ => rfl) (.cons (argumentToken_text argument) ?_ (.single fun _ _ => rfl)))
      exact .of_loose (.cons (by decide) _) _

theorem atomTexts_eq_map (atoms : List Atom) : atomTexts atoms = atoms.map Atom.text := by
  induction atoms with
  | nil => rfl
  | cons atom rest ih => rw [atomTexts, ih, List.map_cons]

mutual

/-- Arguments of a reference are set off from its name by their bracket. -/
theorem Atom.spells : ∀ atom : Atom, (∀ token ∈ atom.tokens, token.Shaped) →
    Spells atom.tokens atom.text
  | .literal _, _ | .charSet _, _ | .wildcard, _ => .single rfl
  | .range first last, _ => by
      intro tail loose
      simp only [Atom.tokens, Atom.text, String.toList_append, List.append_assoc]
      exact .cons rfl (fun _ _ => rfl) (.cons rfl (fun _ _ => rfl) (.single fun _ _ => rfl))
  | .reference name none, _ => by
      have word : Spells [wordToken name.value] name.value := .single (Scan.wordToken_text _)
      simpa only [Atom.tokens, Atom.text, Option.getD_none, String.append_empty, Option.map_none,
        Option.toList_none] using word
  | .reference name (some arguments), shaped => by
      intro tail loose
      obtain ⟨body, spelled, -⟩ := shaped (.charSet arguments) (by simp [Atom.tokens])
      simp only [Atom.tokens, Atom.text, String.toList_append]
      refine .cons (Scan.wordToken_text _) ?_ (.single fun _ _ => rfl)
      rw [Option.getD_some, spelled]
      exact .of_word rfl (by decide) _
  | .excluding operand, shaped => by
      intro tail loose
      have inner := Atom.spells operand fun token member => shaped token (List.mem_cons_of_mem _ member)
      simp only [Atom.tokens, Atom.text, String.toList_append]
      exact .cons rfl (fun _ _ => rfl) (inner tail loose)
  | .excludingAny operands, shaped => by
      intro tail _
      have inner : ∀ token ∈ (atomTokens operands).flatten, token.Shaped := by
        intro token inside
        refine shaped token ?_
        simp only [Atom.tokens, List.mem_cons, List.mem_append]
        exact Or.inr (Or.inr (Or.inl (mem_joinedBy inside)))
      have list := Spells.joinedByBar operands (atoms_spell operands inner)
      rw [← atomTokens_eq_map, ← atomTexts_eq_map] at list
      have close : Laid tail [.mark .closeParen] ")".toList := .single fun _ _ => rfl
      have opened := list.append (.cons (by decide) _) close
      simp only [Atom.tokens, Atom.text, String.toList_append, List.append_assoc]
      exact .token (fun _ _ => rfl) (.token (fun _ _ => rfl) opened)

theorem atoms_spell : ∀ atoms : List Atom, (∀ token ∈ (atomTokens atoms).flatten, token.Shaped) →
    ∀ atom ∈ atoms, Spells atom.tokens atom.text
  | [], _ => fun _ member => absurd member List.not_mem_nil
  | first :: rest, shaped => by
      rw [atomTokens, List.flatten_cons] at shaped
      have here := Atom.spells first fun token inside => shaped token (List.mem_append_left _ inside)
      have later := atoms_spell rest fun token inside => shaped token (List.mem_append_right _ inside)
      exact List.forall_mem_cons.mpr ⟨here, later⟩

end

theorem elementTexts_eq_map (elements : List Element) :
    elementTexts elements = elements.map Element.text := by
  induction elements with
  | nil => rfl
  | cons element rest ih => rw [elementTexts, ih, List.map_cons]

theorem alternativeTexts_eq_map (block : Block) :
    alternativeTexts block = block.map Alternative.text := by
  induction block with
  | nil => rfl
  | cons alternative rest ih => rw [alternativeTexts, ih, List.map_cons]

theorem Spells.elements (elements : List Element)
    (each : ∀ element ∈ elements, Spells element.tokens element.text) :
    Spells (elementTokens elements) (" ".intercalate (elementTexts elements)) := by
  have apart (rest : List Char) : Loose (" ".toList ++ rest) := .cons (by decide) _
  have between (tail : List Char) : Laid tail [] " ".toList := .blank .nil
  rw [elementTokens_eq_flatMap, elementTexts_eq_map]
  cases elements with
  | nil => exact .nil
  | cons first rest => exact .list apart between first rest each

theorem Spells.label (label : Option String) :
    Spells ((label.map fun name => [.mark .hash, wordToken name]).getD [])
      ((label.map fun name => " # " ++ name).getD "") := by
  intro tail loose
  cases label with
  | none => exact .nil
  | some name =>
      have word := Spells.single (Scan.wordToken_text name) tail loose
      simp only [Option.map_some, Option.getD_some, String.toList_append]
      exact .blank (.token (fun _ _ => rfl) (.blank word))

theorem Spells.commands (commands : List Command) :
    Spells (if commands.isEmpty then []
        else .mark .arrow :: Railroad.joinedBy (.mark .comma) (commands.map Command.tokens))
      (if commands.isEmpty then "" else " -> " ++ ", ".intercalate (commands.map Command.text)) := by
  intro tail loose
  have apart (rest : List Char) : Loose (", ".toList ++ rest) := .cons (by decide) _
  have between (tail : List Char) : Laid tail [.mark .comma] ", ".toList :=
    .token (fun _ _ => rfl) (.blank .nil)
  have list := Spells.joinedBy apart between commands fun command _ => command.spells
  cases commands with
  | nil => exact .nil
  | cons first rest =>
      simp only [List.isEmpty_cons, Bool.false_eq_true, if_false, String.toList_append]
      exact .blank (.token (fun _ _ => rfl) (.blank (list tail loose)))

theorem Spells.behind {tokens others : List Token} {text second : String}
    (head : Spells tokens text) (later : Spells others second)
    (apart : ∀ tail, Loose tail → Loose (second.toList ++ tail)) :
    Spells (tokens ++ others) (text ++ second) := by
  intro tail loose
  rw [String.toList_append]
  exact head.append (apart tail loose) (later tail loose)

theorem Alternative.spells_of_elements (elements : List Element) (options : List Setting)
    (label : Option String) (commands : List Command)
    (each : ∀ element ∈ elements, Spells element.tokens element.text) :
    Spells (Alternative.mk elements options label commands).tokens
      (Alternative.mk elements options label commands).text := by
  refine ((Spells.elements elements each).behind (.label label) fun tail loose => ?_).behind
    (.commands commands) fun tail loose => ?_
  · cases label with
    | none => exact loose
    | some name =>
        rw [Option.map_some, Option.getD_some, String.toList_append]
        exact .cons (by decide) _
  · cases commands with
    | nil => exact loose
    | cons first rest =>
        rw [List.isEmpty_cons, if_neg Bool.false_ne_true, String.toList_append]
        exact .cons (by decide) _

theorem Element.spells_of_content {content : Content} (label : Option ElementLabel)
    (suffix : Option Suffix) (spells : Spells content.tokens content.text) :
    Spells (Element.mk content label suffix).tokens (Element.mk content label suffix).text := by
  have suffixed : Spells (content.tokens ++ (suffix.map Suffix.tokens).getD [])
      (content.text ++ (suffix.map Suffix.text).getD "") := by
    cases suffix with
    | none => exact spells.behind .nil fun _ loose => loose
    | some suffix => exact spells.behind suffix.spells fun tail _ => suffix.text_loose tail
  intro tail loose
  rw [Element.tokens, Element.text, List.append_assoc, String.append_assoc, String.toList_append]
  refine Laid.append ?_ (suffixed tail loose)
  cases label with
  | none => exact .nil
  | some label => exact label.laid _

mutual

theorem Content.spells : ∀ content : Content, (∀ token ∈ content.tokens, token.Shaped) →
    Spells content.tokens content.text
  | .atom atom, shaped => Atom.spells atom shaped
  | .group block, shaped => by
      intro tail _
      have inner : ∀ token ∈ (alternativeTokens block).flatten, token.Shaped := fun token inside =>
        shaped token (List.mem_cons_of_mem _ (List.mem_append_left _ (mem_joinedBy inside)))
      have list := Spells.joinedByBar block (alternatives_spell block inner)
      rw [← alternativeTokens_eq_map, ← alternativeTexts_eq_map] at list
      have close : Laid tail [.mark .closeParen] ")".toList := .single fun _ _ => rfl
      have opened := list.append (.cons (by decide) _) close
      simp only [Content.tokens, Content.text, String.toList_append, List.append_assoc]
      exact .token (fun _ _ => rfl) opened
  | .action code false, _ => .single rfl
  | .action code true, _ => by
      intro tail _
      simp only [Content.tokens, Content.text, if_true, String.toList_append]
      exact .cons rfl (fun _ _ => rfl) (.single fun _ _ => rfl)

theorem Element.spells : ∀ element : Element, (∀ token ∈ element.tokens, token.Shaped) →
    Spells element.tokens element.text
  | ⟨content, label, suffix⟩, shaped =>
      Element.spells_of_content label suffix (Content.spells content fun token inside =>
        shaped token (List.mem_append_left _ (List.mem_append_right _ inside)))

theorem elements_spell : ∀ elements : List Element, (∀ token ∈ elementTokens elements, token.Shaped) →
    ∀ element ∈ elements, Spells element.tokens element.text
  | [], _ => fun _ member => absurd member List.not_mem_nil
  | first :: rest, shaped => by
      rw [elementTokens] at shaped
      have here := Element.spells first fun token inside => shaped token (List.mem_append_left _ inside)
      have later := elements_spell rest fun token inside => shaped token (List.mem_append_right _ inside)
      exact List.forall_mem_cons.mpr ⟨here, later⟩

theorem Alternative.spells : ∀ alternative : Alternative,
    (∀ token ∈ alternative.tokens, token.Shaped) → Spells alternative.tokens alternative.text
  | ⟨elements, options, label, commands⟩, shaped =>
      Alternative.spells_of_elements elements options label commands
        (elements_spell elements fun token inside =>
          shaped token (List.mem_append_left _ (List.mem_append_left _ inside)))

theorem alternatives_spell : ∀ block : List Alternative,
    (∀ token ∈ (alternativeTokens block).flatten, token.Shaped) →
      ∀ alternative ∈ block, Spells alternative.tokens alternative.text
  | [], _ => fun _ member => absurd member List.not_mem_nil
  | first :: rest, shaped => by
      rw [alternativeTokens, List.flatten_cons] at shaped
      have here := Alternative.spells first fun token inside => shaped token (List.mem_append_left _ inside)
      have later := alternatives_spell rest fun token inside => shaped token (List.mem_append_right _ inside)
      exact List.forall_mem_cons.mpr ⟨here, later⟩

end

/-- The written form of a block consists of its tokens. -/
theorem block_spells {block : Block} (shaped : ∀ token ∈ blockTokens block, token.Shaped) :
    Spells (blockTokens block) (blockText block) := by
  have each := alternatives_spell block fun token inside => shaped token (mem_joinedBy inside)
  have list := Spells.joinedByBar block each
  rwa [← alternativeTokens_eq_map, ← alternativeTexts_eq_map] at list

end Railroad
