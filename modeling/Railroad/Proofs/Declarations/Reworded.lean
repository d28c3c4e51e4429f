import Railroad.Proofs.Declarations.Blocks
import Railroad.Proofs.Documentation.Announced
import Railroad.Proofs.Reading.Reads

/-!
# Blocks with another text

A grammar is read again when a declaration block of it gets another text.  What is declared
changes in this block only, and not even there if the block belongs to a group.
-/

namespace Railroad

/-- Another text for a block behind a keyword. -/
structure Change where
  word : Keyword
  old : String
  new : String

/-- Texts that differ in `count` places, where the new text stands for the old one. -/
inductive Replaced (old new : String) : (count : Nat) → List String → List String → Prop where
  | nil : Replaced old new 0 [] []
  | same {count : Nat} {texts others : List String} (text : String)
      (later : Replaced old new count texts others) :
      Replaced old new count (text :: texts) (text :: others)
  | here {count : Nat} {texts others : List String} (later : Replaced old new count texts others) :
      Replaced old new (count + 1) (old :: texts) (new :: others)

namespace Replaced

variable {old new : String} {count : Nat} {texts others : List String}

theorem eq_of_zero (replaced : Replaced old new count texts others) (none : count = 0) :
    texts = others := by
  induction replaced with
  | nil => rfl
  | same text _ ih => rw [ih none]
  | here => cases none

/-- Entries of texts that differ in one place at most are the same if they are there. -/
theorem flatMap_eq_iff {γ : Type} {entries : String → List γ}
    (replaced : Replaced old new count texts others) (once : count ≤ 1) :
    texts.flatMap entries = others.flatMap entries ↔ count = 0 ∨ entries old = entries new := by
  induction replaced with
  | nil => simp
  | same text _ ih =>
      rw [List.flatMap_cons, List.flatMap_cons, List.append_cancel_left_eq]
      exact ih once
  | @here count _ _ later _ =>
      have none : count = 0 := Nat.le_zero.mp (Nat.le_of_succ_le_succ once)
      rw [later.eq_of_zero none, List.flatMap_cons, List.flatMap_cons,
        List.append_cancel_right_eq]
      simp

end Replaced

/-- Tokens that differ in the texts of blocks behind the keyword, `count` of which do not belong to
groups. -/
inductive Reworded (change : Change) : (grouped : Bool) → (count : Nat) →
    List Token → List Token → Prop where
  | nil {grouped : Bool} : Reworded change grouped 0 [] []
  | same {grouped : Bool} {count : Nat} {tokens others : List Token} (token : Token)
      (later : Reworded change (token == .mark .openParen) count tokens others) :
      Reworded change grouped count (token :: tokens) (token :: others)
  | block {grouped : Bool} {count : Nat} {tokens others : List Token}
      (later : Reworded change false count tokens others) :
      Reworded change grouped (cond grouped count (count + 1))
        (.keyword change.word :: .action change.old :: tokens)
        (.keyword change.word :: .action change.new :: others)

namespace Reworded

variable {change : Change} {grouped : Bool} {count : Nat} {tokens others front back : List Token}

theorem refl (change : Change) (grouped : Bool) (tokens : List Token) :
    Reworded change grouped 0 tokens tokens := by
  induction tokens generalizing grouped with
  | nil => exact .nil
  | cons token rest ih => exact .same token (ih _)

/-- One block among tokens counts unless a parenthesis stands in front of its keyword. -/
theorem single (change : Change) (front back : List Token) :
    Reworded change grouped (cond (front.getLast?.elim grouped (· == .mark .openParen)) 0 1)
      (front ++ .keyword change.word :: .action change.old :: back)
      (front ++ .keyword change.word :: .action change.new :: back) := by
  induction front generalizing grouped with
  | nil => exact .block (.refl change false back)
  | cons token rest ih =>
      refine .same token ?_
      cases rest with
      | nil => exact ih
      | cons next later => exact ih

/-- One block is reworded once, or not at all if it belongs to a group. -/
theorem once (change : Change) (front back : List Token) : ∃ count ≤ 1,
    (count = 0 ↔ front.getLast? = some (.mark .openParen)) ∧ Reworded change false count
      (front ++ .keyword change.word :: .action change.old :: back)
      (front ++ .keyword change.word :: .action change.new :: back) := by
  refine ⟨_, ?_, ?_, .single change front back⟩
  · cases front.getLast?.elim false (· == .mark .openParen) <;> decide
  · cases front.getLast? with
    | none => simp
    | some last => simp [Bool.cond_eq_ite]

theorem terminals (reworded : Reworded change grouped count tokens others) :
    tokens.map Token.terminal = others.map Token.terminal := by
  induction reworded with
  | nil => rfl
  | same token _ ih => rw [List.map_cons, List.map_cons, ih]
  | block _ ih => simp only [List.map_cons, ih, Token.terminal]

theorem count_eq_zero (reworded : Reworded change grouped count tokens others)
    (free : .keyword change.word ∉ tokens) : count = 0 := by
  induction reworded with
  | nil => rfl
  | same token _ ih => exact ih fun later => free (List.mem_cons_of_mem _ later)
  | block => exact absurd (List.mem_cons_self ..) free

/-- Parts that do not end in front of a block are reworded on their own. -/
theorem split (reworded : Reworded change grouped count (front ++ back) others)
    (plain : front = [] → grouped = false)
    (ends : ∀ last ∈ front.getLast?, last ≠ .keyword change.word ∧ last ≠ .mark .openParen) :
    ∃ first second own left, others = first ++ second ∧ own + left = count ∧
      Reworded change grouped own front first ∧ Reworded change false left back second := by
  generalize whole : front ++ back = tokens at reworded
  induction reworded generalizing front with
  | nil =>
      obtain ⟨rfl, rfl⟩ := List.append_eq_nil_iff.mp whole
      exact ⟨[], [], 0, 0, rfl, rfl, .nil, .nil⟩
  | @same grouped count tokens others token later ih =>
      cases front with
      | nil =>
          obtain rfl : back = token :: tokens := whole
          obtain rfl := plain rfl
          exact ⟨[], _, 0, count, rfl, Nat.zero_add _, .nil, .same token later⟩
      | cons first rest =>
          obtain ⟨rfl, split⟩ := List.cons.inj whole
          have endsRest : ∀ last ∈ rest.getLast?,
              last ≠ .keyword change.word ∧ last ≠ .mark .openParen := fun last isLast =>
            ends last (by rw [List.getLast?_cons, isLast]; rfl)
          obtain ⟨inFront, behind, own, left, rfl, sum, head, tail⟩ := ih (fun none => by
              subst none
              exact beq_eq_false_iff_ne.mpr (ends first rfl).2) endsRest split
          exact ⟨first :: inFront, behind, own, left, rfl, sum, .same first head, tail⟩
  | @block grouped count tokens others later ih =>
      rcases front with _ | ⟨key, _ | ⟨text, rest⟩⟩
      · obtain rfl : back = _ := whole
        obtain rfl := plain rfl
        exact ⟨[], _, 0, _, rfl, Nat.zero_add _, .nil, .block later⟩
      · exact absurd (List.cons.inj whole).1 (ends key rfl).1
      · obtain ⟨rfl, split⟩ := List.cons.inj whole
        obtain ⟨rfl, splitRest⟩ := List.cons.inj split
        have endsRest : ∀ last ∈ rest.getLast?,
            last ≠ .keyword change.word ∧ last ≠ .mark .openParen := fun last isLast =>
          ends last (by rw [List.getLast?_cons_cons, List.getLast?_cons, isLast]; rfl)
        obtain ⟨inFront, behind, own, left, rfl, sum, head, tail⟩ :=
          ih (fun _ => rfl) endsRest splitRest
        refine ⟨_ :: _ :: inFront, behind, _, left, rfl, ?_, .block head, tail⟩
        cases grouped with
        | false => exact (Nat.add_right_comm ..).trans (congrArg (· + 1) sum)
        | true => exact sum

/-- Blocks behind other keywords keep their texts. -/
theorem blocksOf (reworded : Reworded change grouped count tokens others) (word : Keyword) :
    Replaced change.old change.new (if word = change.word then count else 0)
      (blocksOf word grouped tokens) (Railroad.blocksOf word grouped others) := by
  induction reworded with
  | nil =>
      rw [blocksOf_nil, ite_self]
      exact .nil
  | @same grouped count tokens others token later ih =>
      by_cases key : token = .keyword word
      · subst key
        cases grouped with
        | true =>
            rw [blocksOf_grouped, blocksOf_grouped]
            exact ih
        | false =>
            cases later with
            | nil =>
                rw [blocksOf_alone fun _ _ => (List.cons_ne_nil _ _).symm]
                exact ih
            | same next behind =>
                by_cases action : ∃ text, next = .action text
                · obtain ⟨text, rfl⟩ := action
                  rw [blocksOf_action, blocksOf_action] at ih
                  rw [blocksOf_block, blocksOf_block]
                  exact .same text ih
                · have alone (rest : List Token) :
                      ∀ text later, next :: rest ≠ .action text :: later := fun text _ same =>
                    action ⟨text, (List.cons.inj same).1⟩
                  rw [blocksOf_alone (alone _), blocksOf_alone (alone _)]
                  exact ih
            | block behind =>
                have alone (rest : List Token) : ∀ text later,
                    .keyword change.word :: rest ≠ Token.action text :: later := fun _ _ same =>
                  Token.noConfusion (List.cons.inj same).1
                rw [blocksOf_alone (alone _), blocksOf_alone (alone _)]
                exact ih
      · rw [blocksOf_other key, blocksOf_other key]
        exact ih
  | @block grouped count tokens others later ih =>
      by_cases same : word = change.word
      · subst same
        rw [if_pos rfl] at ih ⊢
        cases grouped with
        | false =>
            rw [blocksOf_block, blocksOf_block]
            exact .here ih
        | true =>
            rw [blocksOf_grouped, blocksOf_grouped, blocksOf_action, blocksOf_action]
            exact ih
      · have other : Token.keyword change.word ≠ .keyword word := fun equal =>
          same (Token.keyword.inj equal).symm
        rw [if_neg same] at ih ⊢
        rw [blocksOf_other other, blocksOf_other other, blocksOf_action, blocksOf_action]
        exact ih

end Reworded

/-! ## Reading again -/

/-- Entries of texts that differ in `count` places. -/
def Reread {γ : Type} (change : Change) (entries : String → List γ) (count : Nat)
    (first second : List γ) : Prop :=
  ∃ texts others, Replaced change.old change.new count texts others ∧
    first = texts.flatMap entries ∧ second = others.flatMap entries

section Entries

variable {γ : Type} {change : Change} {word : Keyword} {entries : String → List γ} {count : Nat}
  {first second : List γ} {taken other : List Lexeme}

theorem Reread.eq_iff (reread : Reread change entries count first second) (once : count ≤ 1) :
    first = second ↔ count = 0 ∨ entries change.old = entries change.new := by
  obtain ⟨texts, others, replaced, rfl, rfl⟩ := reread
  exact replaced.flatMap_eq_iff once

theorem Declares.flatMap_eq (declares : Declares word entries taken first) :
    (blocksOf word false (tokensOf taken)).flatMap entries = first := by
  have whole := declares []
  rwa [List.append_nil, blocksOf_nil, List.flatMap_nil, List.append_nil] at whole

theorem Declares.rereads (declares : Declares word entries taken first)
    (again : Declares word entries other second)
    (reworded : Reworded change false count (tokensOf taken) (tokensOf other)) :
    Reread change entries (if word = change.word then count else 0) first second :=
  ⟨_, _, reworded.blocksOf word, declares.flatMap_eq.symm, again.flatMap_eq.symm⟩

end Entries

namespace Reader

/-- A word of the form is taken whole, and what was taken spells the value. -/
theorem Completes.spelled {α : Type} {reader : Reader α} {spelled : List Lexeme → α → Prop}
    {form : Form} {more : List Terminal} {taken rest : List Lexeme}
    (completes : ∀ bound, Completes bound reader form more) (yields : Yields reader spelled)
    (derives : Derives form (terminals taken)) (clear : Clear more rest) :
    ∃ value, reader (taken ++ rest) = .done value rest ∧ spelled taken value := by
  obtain ⟨value, read⟩ := completes _ (Nat.le_refl _) derives clear
  obtain ⟨same, split, spells⟩ := yields read
  obtain rfl := List.append_cancel_right split
  exact ⟨value, read, spells⟩

end Reader

namespace Reworded

variable {change : Change} {count : Nat} {taken back other : List Lexeme} {form : Form}

theorem terminals_eq (reworded : Reworded change false count (tokensOf taken) (tokensOf other)) :
    Railroad.terminals taken = Railroad.terminals other := by
  rw [Railroad.terminals_eq, Railroad.terminals_eq]
  exact reworded.terminals

/-- A word that does not end with the keyword or a parenthesis is reworded on its own. -/
theorem split_word
    (reworded : Reworded change false count (tokensOf (taken ++ back)) (tokensOf other))
    (derives : Derives form (Railroad.terminals taken))
    (ends : .keyword change.word ∉ form.finals ∧ .mark .openParen ∉ form.finals) :
    ∃ first second own left, other = first ++ second ∧ own + left = count ∧
      Reworded change false own (tokensOf taken) (tokensOf first) ∧
      Reworded change false left (tokensOf back) (tokensOf second) ∧
      Derives form (Railroad.terminals first) := by
  rw [tokensOf_append] at reworded
  have plain : ∀ last ∈ (tokensOf taken).getLast?,
      last ≠ .keyword change.word ∧ last ≠ .mark .openParen := by
    intro last isLast
    have final : last.terminal ∈ form.finals := by
      refine derives.last_mem_finals ?_
      rw [Railroad.terminals_eq, List.getLast?_map, isLast]
      rfl
    constructor
    · rintro rfl
      exact ends.1 final
    · rintro rfl
      exact ends.2 final
  obtain ⟨_, _, own, left, split, sum, head, tail⟩ := reworded.split (fun _ => rfl) plain
  obtain ⟨first, second, rfl, rfl, rfl⟩ := List.map_eq_append_iff.mp split
  have head : Reworded change false own (tokensOf taken) (tokensOf first) := head
  exact ⟨first, second, own, left, rfl, sum, head, tail, head.terminals_eq ▸ derives⟩

/-- There are no declaration blocks in words without their keyword. -/
theorem count_eq_zero_of_derives
    (reworded : Reworded change false count (tokensOf taken) (tokensOf other))
    (derives : Derives form (Railroad.terminals taken)) (free : .keyword change.word ∉ form.letters) :
    count = 0 := by
  refine reworded.count_eq_zero fun member => ?_
  obtain ⟨lexeme, listed, isKey⟩ := List.mem_map.mp member
  have letter := derives.mem_letters _ (List.mem_map_of_mem listed)
  rw [isKey] at letter
  exact free letter

end Reworded

namespace Parse

open Reader

/-- The lexemes of a rule declare its options. -/
def Stands (taken : List Lexeme) : Section → Prop
  | .mode _ => Derives (.notion .mode) (terminals taken)
  | .rule declared => Derives (.notion .rule) (terminals taken) ∧
      Declares .options Declarations.settings taken declared.options

theorem fileSection_stands : Yields fileSection Stands := by
  have mode : Yields (modeDeclaration.map Section.mode) Stands := by
    refine (Yields.map (modeDeclaration_decides).sound _).mono fun taken found => ?_
    rintro ⟨name, derives, rfl⟩
    exact derives
  have declared : Yields (committed (rule.map Section.rule)) Stands := by
    refine (Yields.map ((rule_recognizes).sound.both rule_options.yields) _).committed.mono
      fun taken found => ?_
    rintro ⟨value, stands, rfl⟩
    exact stands
  exact mode.orElse declared

/-- The form of a mode declaration or a rule. -/
def sectionForm : Form := .choice (.notion .mode) [.notion .rule]

theorem Stands.derives {taken : List Lexeme} {found : Section} (stands : Stands taken found) :
    Derives sectionForm (terminals taken) := by
  cases found with
  | mode name => exact .left stands
  | rule declared => exact .right stands.1

/-- Modes and rules do not begin alike. -/
theorem not_mode_of_rule {letters : List Terminal} (derives : Derives (.notion .rule) letters) :
    ¬Derives (.notion .mode) letters := by
  intro mode
  cases letters with
  | nil => exact derives.ne_nil rfl rfl
  | cons first rest =>
      have apart : ∀ terminal ∈ (Form.notion .mode).starts,
          terminal ∉ (Form.notion .rule).starts := by
        decide
      exact apart first mode.head_mem_starts derives.head_mem_starts

/-- Sections of which the options of rules differ in `count` blocks. -/
inductive SectionsReread (change : Change) : (count : Nat) → List Section → List Section → Prop where
  | nil : SectionsReread change 0 [] []
  | mode {count : Nat} {sections again : List Section} (name other : String)
      (later : SectionsReread change count sections again) :
      SectionsReread change count (.mode name :: sections) (.mode other :: again)
  | rule {own count : Nat} {sections again : List Section} {declared other : Rule}
      (head : Reread change Declarations.settings own declared.options other.options)
      (later : SectionsReread change count sections again) :
      SectionsReread change (own + count) (.rule declared :: sections) (.rule other :: again)

theorem SectionsReread.eq_iff {change : Change} {count : Nat} {sections again : List Section}
    (reread : SectionsReread change count sections again) (once : count ≤ 1)
    (mode modeToo : Option String) :
    (rulesInModes mode sections).map Rule.options = (rulesInModes modeToo again).map Rule.options ↔
      count = 0 ∨ Declarations.settings change.old = Declarations.settings change.new := by
  induction reread generalizing mode modeToo with
  | nil => simp [rulesInModes]
  | mode name other _ ih => exact ih once _ _
  | @rule own count sections again declared other head later ih =>
      rw [rulesInModes, rulesInModes, List.map_cons, List.map_cons, List.cons.injEq,
        ih (by omega) mode modeToo]
      have here := head.eq_iff (by omega)
      rw [here, ← and_or_right, Nat.add_eq_zero_iff]

/-- Of a section read again, the options of a rule may have changed. -/
theorem Stands.rereads {change : Change} (known : change.word ∈ declaring) {own count : Nat}
    {taken other : List Lexeme} {found value : Section} {sections again : List Section}
    (stands : Stands taken found) (standsToo : Stands other value)
    (reworded : Reworded change false own (tokensOf taken) (tokensOf other))
    (later : SectionsReread change count sections again) :
    SectionsReread change (own + count) (found :: sections) (value :: again) ∧
      (change.word ≠ .options → own = 0) := by
  have freeMode : ∀ word ∈ declaring, .keyword word ∉ Notion.mode.form.letters := by decide
  have freeRule : ∀ word ∈ declaring, word ≠ .options →
      .keyword word ∉ Notion.rule.form.letters := by decide
  cases found with
  | mode name =>
      have none : own = 0 :=
        reworded.count_eq_zero_of_derives (Derives.notion_iff.mp stands) (freeMode _ known)
      subst none
      rw [Nat.zero_add]
      cases value with
      | mode other => exact ⟨.mode name other later, fun _ => rfl⟩
      | rule declared =>
          exact absurd (reworded.terminals_eq ▸ stands) (not_mode_of_rule standsToo.1)
  | rule declared =>
      cases value with
      | mode name =>
          exact absurd standsToo (not_mode_of_rule (reworded.terminals_eq ▸ stands.1))
      | rule other =>
          have none (differs : change.word ≠ .options) : own = 0 :=
            reworded.count_eq_zero_of_derives (Derives.notion_iff.mp stands.1)
              (freeRule _ known differs)
          have options := stands.2.rereads standsToo.2 reworded
          have counted : (if .options = change.word then own else 0) = own := by
            split
            next => rfl
            next differs => exact (none (Ne.symm differs)).symm
          rw [counted] at options
          exact ⟨.rule options later, none⟩

/-- Sections are read again one by one. -/
theorem sections_reread {change : Change} (known : change.word ∈ declaring) {count : Nat}
    {taken other : List Lexeme} {sections : List Section} (each : Each Stands taken sections)
    (reworded : Reworded change false count (tokensOf taken) (tokensOf other)) :
    ∃ again, exhaust fileSection other = .done again [] ∧
      SectionsReread change count sections again ∧ (change.word ≠ .options → count = 0) := by
  have finals : ∀ word ∈ declaring,
      .keyword word ∉ sectionForm.finals ∧ .mark .openParen ∉ sectionForm.finals := by
    decide
  induction each generalizing count other with
  | nil =>
      cases other with
      | nil =>
          cases reworded
          exact ⟨[], by rw [exhaust, if_pos rfl], .nil, fun _ => rfl⟩
      | cons => cases reworded
  | @cons front back found others head tail ih =>
      obtain ⟨first, second, own, left, rfl, rfl, here, later, derives⟩ :=
        reworded.split_word head.derives (finals _ known)
      obtain ⟨again, read, reread, none⟩ := ih later
      have many : Derives (.many sectionForm) (terminals second) := by
        rw [← later.terminals_eq]
        exact Sound.derives_of_each (tail.mono fun _ _ stands => stands.derives)
      have clear : Clear Form.handler.starts second := by
        have atEnd := Clear.nil Form.handler.starts
        exact List.append_nil second ▸ atEnd.append many (by decide)
      obtain ⟨value, readFirst, stands⟩ :=
        Completes.spelled (fileSection_recognizes).complete fileSection_stands derives clear
      have shorter : second.length < (first ++ second).length := by
        obtain ⟨lexeme, rest, rfl, -⟩ := first_of_derives derives rfl
        rw [List.length_append, List.length_cons]
        omega
      obtain ⟨whole, noneHere⟩ := head.rereads known stands here reread
      exact ⟨value :: again, exhaust_cons readFirst shorter read, whole,
        fun differs => by rw [noneHere differs, none differs]⟩

end Parse

/-- The same names and settings are declared everywhere. -/
def Grammar.DeclaresAs (first second : Grammar) : Prop :=
  first.tokens = second.tokens ∧ first.channels = second.channels ∧
    first.options = second.options ∧
    first.rules.map Rule.options = second.rules.map Rule.options

/-- The new text declares what the old one does. -/
def Change.Silent (change : Change) : Prop :=
  match change.word with
  | .options => Declarations.settings change.old = Declarations.settings change.new
  | _ => Declarations.names change.old = Declarations.names change.new

namespace Parse

open Reader

/-- What is gathered from all that stands between the header and the first section. -/
theorem prequels_declare : Yields (many prequel) fun taken prequels =>
    Derives (.many (.notion .prequel)) (terminals taken) ∧
      Declares .options Declarations.settings taken (prequels.flatMap Prequel.optionSettings) ∧
      Declares .tokens Declarations.names taken (prequels.flatMap Prequel.tokenNames) ∧
      Declares .channels Declarations.names taken (prequels.flatMap Prequel.channelNames) :=
  (prequel_decides).sound.many.both (prequel_options.many.yields.both
    (prequel_tokens.many.yields.both prequel_channels.many.yields))

/-- A grammar with another text in a block is read again, and what is declared stays the same if
and only if the block belongs to a group or the new text declares the same. -/
theorem grammar_reread {change : Change} (known : change.word ∈ declaring) {count : Nat}
    (once : count ≤ 1) {lexemes other rest : List Lexeme} {found : Grammar}
    (read : grammar lexemes = .done found rest)
    (reworded : Reworded change false count (tokensOf lexemes) (tokensOf other)) :
    ∃ again, grammar other = .done again [] ∧
      (found.DeclaresAs again ↔ count = 0 ∨ change.Silent) := by
  obtain ⟨_, _, readHeader, read⟩ := andThen_done read
  obtain ⟨prequels, _, readPrequels, read⟩ := andThen_done read
  obtain ⟨sections, _, readSections, done⟩ := andThen_done read
  cases done
  have progress (taken : List Lexeme) (found : Section) (stands : Stands taken found) :
      taken ≠ [] := fun none => stands.derives.ne_nil rfl (none ▸ rfl)
  obtain rfl : rest = [] := Yields.exhaust_nil fileSection_stands progress readSections
  obtain ⟨front, rfl, headDerives⟩ := (header_recognizes).sound readHeader
  obtain ⟨middle, rfl, derives, options, tokens, channels⟩ := prequels_declare readPrequels
  obtain ⟨back, rfl, each⟩ := (fileSection_stands).exhaust progress readSections
  rw [List.append_nil] at reworded
  -- the block stands among the prequels or in a section
  have plain : ∀ word ∈ declaring,
      (.keyword word ∉ Form.header.finals ∧ .mark .openParen ∉ Form.header.finals) ∧
        .keyword word ∉ Form.header.letters ∧ .keyword word ∉ (Form.notion .prequel).finals ∧
        .mark .openParen ∉ (Form.notion .prequel).finals := by
    decide
  obtain ⟨header, _, none, _, rfl, rfl, inHeader, later, headerDerives⟩ :=
    reworded.split_word headDerives (plain _ known).1
  obtain rfl : none = 0 := inHeader.count_eq_zero_of_derives headDerives (plain _ known).2.1
  obtain ⟨between, behind, own, left, rfl, rfl, inPrequels, inSections, prequelsDerive⟩ :=
    later.split_word derives (plain _ known).2.2
  obtain ⟨sectionsToo, readSectionsToo, reread, only⟩ := sections_reread known each inSections
  have manySections : Derives (.many sectionForm) (terminals behind) := by
    rw [← inSections.terminals_eq]
    exact Sound.derives_of_each (each.mono fun _ _ stands => stands.derives)
  have clear : Clear (Form.notion .prequel).starts behind := by
    have atEnd := Clear.nil (Form.notion .prequel).starts
    exact List.append_nil behind ▸ atEnd.append manySections (by decide)
  obtain ⟨_, readHeaderToo⟩ := (header_recognizes).complete _ (Nat.le_refl _) headerDerives
    (fun _ _ => List.not_mem_nil : Clear [] (between ++ behind))
  obtain ⟨prequelsToo, readPrequelsToo, -, optionsToo, tokensToo, channelsToo⟩ :=
    Completes.spelled ((prequel_decides).many (by decide)).complete prequels_declare prequelsDerive
      (clear.of_subset (by decide))
  refine ⟨_, (andThen_of_done readHeaderToo _).trans ((andThen_of_done readPrequelsToo _).trans
    (andThen_of_done readSectionsToo _)), ?_⟩
  have few (word : Keyword) : (if word = change.word then own else 0) ≤ 1 := by
    split <;> omega
  rw [Grammar.DeclaresAs, (tokens.rereads tokensToo inPrequels).eq_iff (few _),
    (channels.rereads channelsToo inPrequels).eq_iff (few _),
    (options.rereads optionsToo inPrequels).eq_iff (few _),
    reread.eq_iff (by omega) none none]
  obtain ⟨word, old, new⟩ := change
  simp only [declaring, List.mem_cons, List.not_mem_nil, or_false] at known
  rcases known with rfl | rfl | rfl
  · simp [Change.Silent, ← and_or_right]
  · obtain rfl := only Keyword.noConfusion
    simp [Change.Silent]
  · obtain rfl := only Keyword.noConfusion
    simp [Change.Silent]

end Parse

end Railroad
