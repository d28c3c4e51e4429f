import Railroad.Proofs.Declarations.Reworded
import Railroad.Proofs.Grammar.Language
import Railroad.Proofs.Token.Inserted

/-!
# Comments in declaration blocks

The text of a declaration block is split into entries as it is written, comments and all.  So a
comment in a block becomes a part of the entry around it, and what is declared stays the same only
in a group and where that entry is no setting of an `options` block.
-/

namespace Railroad

namespace Text

/-- The characters of a text that are no blanks. -/
def visible (text : List Char) : List Char := text.filter fun c => !isBlank c

theorem visible_append (first second : List Char) :
    visible (first ++ second) = visible first ++ visible second := List.filter_append ..

theorem visible_trimStart (text : List Char) : visible (trimStart text) = visible text := by
  induction text with
  | nil => rfl
  | cons c rest ih =>
      rw [trimStart, List.dropWhile_cons]
      split
      next blank =>
        rw [visible, visible, List.filter_cons_of_neg (by simp [blank])]
        exact ih
      next => rfl

/-- Trimming takes away nothing but blanks. -/
theorem visible_trim (text : List Char) : visible (trim text) = visible text := by
  have reversed (text : List Char) : visible text.reverse = (visible text).reverse :=
    List.filter_reverse ..
  rw [trim, reversed, visible_trimStart, reversed, List.reverse_reverse, visible_trimStart]

/-- A text is not trimmed to the same after an insertion that is no blank. -/
theorem trim_inserted_ne {middle : List Char} (seen : visible middle ≠ []) (first second : List Char) :
    trim (first ++ second) ≠ trim (first ++ (middle ++ second)) := by
  intro same
  have shown := congrArg (fun text => (visible text).length) same
  simp only [visible_trim, visible_append, List.length_append] at shown
  have positive := List.length_pos_iff.mpr seen
  omega

theorem trim_inserted_ne_nil {middle : List Char} (seen : visible middle ≠ [])
    (first second : List Char) : trim (first ++ (middle ++ second)) ≠ [] := by
  intro none
  have shown := visible_trim (first ++ (middle ++ second))
  rw [none, visible_append, visible_append] at shown
  exact seen (List.append_eq_nil_iff.mp (List.append_eq_nil_iff.mp shown.symm).2).1

end Text

namespace Declarations

theorem inner_block (body : List Char) : inner ('{' :: (body ++ ['}'])) = body := by
  rw [inner, List.getLast?_concat, if_pos rfl, List.dropLast_concat]

theorem settings_blockOf (body : List Char) :
    settings (blockOf body) = (body.splitOn ';').filterMap setting? := by
  rw [settings, blockOf, String.toList_ofList, inner_block]

theorem names_blockOf (body : List Char) :
    names (blockOf body) = (body.splitOn ',').filterMap name? := by
  rw [names, blockOf, String.toList_ofList, inner_block]

/-- Lists of entries that differ in one place declare the same if the entries there do. -/
theorem filterMap_middle_eq_iff {α β : Type} {declared : α → Option β} {front back : List α}
    {entry other : α} : (front ++ entry :: back).filterMap declared =
      (front ++ other :: back).filterMap declared ↔ declared entry = declared other := by
  simp only [List.filterMap_append, List.append_cancel_left_eq, List.filterMap_cons]
  cases declared entry <;> cases declared other <;> simp

theorem name?_elim (entry : List Char) : (name? entry).elim [] String.toList = Text.trim entry := by
  rw [name?]
  split
  next none => exact none.symm
  next => exact String.toList_ofList

theorem setting?_of_split {entry name value : List Char}
    (split : Text.splitOnce '=' entry = some (name, value)) :
    setting? entry = (name? name).map fun text => ⟨text, String.ofList (Text.trim value)⟩ := by
  rw [setting?, split]
  dsimp only
  rw [name?]
  split <;> rfl

section Comments

variable {comment : List Char} (seen : Text.visible comment ≠ [])

include seen

/-- A comment becomes a part of a name, or a name. -/
theorem name?_inserted_ne (first second : List Char) :
    name? (first ++ second) ≠ name? (first ++ (comment ++ second)) := by
  intro same
  have trimmed := congrArg (·.elim [] String.toList) same
  simp only [name?_elim] at trimmed
  exact Text.trim_inserted_ne seen first second trimmed

theorem name?_inserted_ne_none (first second : List Char) :
    name? (first ++ (comment ++ second)) ≠ none := by
  intro none
  have trimmed := name?_elim (first ++ (comment ++ second))
  rw [none] at trimmed
  exact Text.trim_inserted_ne_nil seen first second trimmed.symm

/-- A comment becomes a part of a setting, unless the entry around it is none. -/
theorem setting?_inserted (free : '=' ∉ comment) (first second : List Char) :
    setting? (first ++ second) = setting? (first ++ (comment ++ second)) ↔
      setting? (first ++ (comment ++ second)) = none := by
  by_cases inFirst : '=' ∈ first
  · obtain ⟨name, value, rfl, before⟩ := List.eq_append_cons_of_mem inFirst
    have split (rest : List Char) : setting? (name ++ '=' :: value ++ rest) =
        (name? name).map fun text => ⟨text, String.ofList (Text.trim (value ++ rest))⟩ := by
      rw [List.append_assoc]
      exact setting?_of_split (Text.splitOnce_append_cons before _)
    rw [split, split]
    cases name? name with
    | none => simp
    | some text =>
        have differ := mt String.ofList_inj.mp (Text.trim_inserted_ne seen value second)
        simp [differ]
  by_cases inSecond : '=' ∈ second
  · obtain ⟨name, value, rfl, before⟩ := List.eq_append_cons_of_mem inSecond
    have split {front : List Char} (free : '=' ∉ front) : setting? (front ++ (name ++ '=' :: value)) =
        (name? (front ++ name)).map fun text => ⟨text, String.ofList (Text.trim value)⟩ := by
      rw [← List.append_assoc]
      refine setting?_of_split (Text.splitOnce_append_cons ?_ value)
      exact fun member => (List.mem_append.mp member).elim free before
    have freeToo : '=' ∉ first ++ comment := fun member =>
      (List.mem_append.mp member).elim inFirst free
    rw [split inFirst, ← List.append_assoc, split freeToo, List.append_assoc, Option.map_eq_none_iff]
    constructor
    · intro same
      have names := congrArg (·.map Setting.name) same
      simp only [Option.map_map, Function.comp_def, Option.map_id'] at names
      exact absurd names (name?_inserted_ne seen first name)
    · exact fun none => absurd none (name?_inserted_ne_none seen first name)
  · have none {entry : List Char} (free : '=' ∉ entry) : setting? entry = none := by
      rw [setting?, Text.splitOnce_eq_none free]
    rw [none (by simp [inFirst, inSecond]), none (by simp [inFirst, inSecond, free])]

end Comments

end Declarations

/-- A comment is seen. -/
theorem IsComment.visible_ne_nil {comment : List Char} (isComment : IsComment comment) :
    Text.visible comment ≠ [] := by
  have slash : '/' ∈ comment := by cases isComment <;> exact List.mem_cons_self ..
  exact List.ne_nil_of_mem (List.mem_filter.mpr ⟨slash, by decide⟩)

theorem Change.silent_iff {word : Keyword} {left right comment : List Char} (known : word ∈ declaring)
    (isComment : IsComment comment) :
    Change.Silent ⟨word, blockOf (left ++ right), blockOf (left ++ (comment ++ right))⟩ ↔
      word = .options ∧ Declarations.setting?
        (left.rtakeWhile (· != ';') ++ (comment ++ right.takeWhile (· != ';'))) = none := by
  have seen := isComment.visible_ne_nil
  have named : Declarations.names (blockOf (left ++ right)) ≠
      Declarations.names (blockOf (left ++ (comment ++ right))) := by
    obtain ⟨earlier, later, parts⟩ := @Text.splitOn_around ',' left right
    have before := parts [] List.not_mem_nil
    rw [List.nil_append, List.nil_append] at before
    rw [Declarations.names_blockOf, Declarations.names_blockOf, before,
      parts comment (isComment.free (by decide)), Ne, Declarations.filterMap_middle_eq_iff]
    exact Declarations.name?_inserted_ne seen _ _
  simp only [declaring, List.mem_cons, List.not_mem_nil, or_false] at known
  rcases known with rfl | rfl | rfl
  · obtain ⟨earlier, later, parts⟩ := @Text.splitOn_around ';' left right
    have before := parts [] List.not_mem_nil
    rw [List.nil_append, List.nil_append] at before
    simp only [Change.Silent, true_and]
    rw [Declarations.settings_blockOf, Declarations.settings_blockOf, before,
      parts comment (isComment.free (by decide)), Declarations.filterMap_middle_eq_iff]
    exact Declarations.setting?_inserted seen (isComment.free (by decide)) _ _
  · simp [Change.Silent, named]
  · simp [Change.Silent, named]

/-- The block of a declaration in a source; `heading` are the tokens in front of its keyword. -/
structure DeclaresIn (word : Keyword) (heading : List Token) (before body behind : List Char) :
    Prop where
  known : word ∈ declaring
  scanned : ∃ front back span, tokenize (withBlock before body behind) =
      .ok (front ++ ⟨.action (blockOf body), span⟩ :: back) ∧
    span.start = byteLength before ∧ tokensOf (significant front) = heading ++ [.keyword word]

namespace Grammar

/--
A source is still a grammar with a comment in a gap of a declaration block.  It declares the same
names and settings if and only if the block belongs to a group, or is an `options` block in which
the entry around the comment, with the comment in it, is no setting.
-/
theorem comment_declared {word : Keyword} {heading : List Token}
    {before left right behind comment : List Char} {found : Grammar}
    (block : DeclaresIn word heading before (left ++ right) behind)
    (gap : IsGap left (right ++ '}' :: behind)) (isComment : IsComment comment)
    (parsed : Grammar.parse (withBlock before (left ++ right) behind) = .ok found) :
    ∃ again, Grammar.parse (withBlock before (left ++ (comment ++ right)) behind) = .ok again ∧
      (found.DeclaresAs again ↔ heading.getLast? = some (.mark .openParen) ∨
        word = .options ∧ Declarations.setting?
          (left.rtakeWhile (· != ';') ++ (comment ++ right.takeWhile (· != ';'))) = none) := by
  obtain ⟨known, front, back, span, scanned, place, headed⟩ := block
  obtain ⟨lexemes, rest, same, read⟩ := parse_eq_ok.mp parsed
  obtain rfl := Except.ok.inj (scanned.symm.trans same)
  obtain ⟨others, scannedToo, tokens⟩ := tokenize_inserted gap isComment scanned place
  have split (text : String) :
      (tokensOf front ++ Token.action text :: tokensOf back).filter Token.isRead =
        heading ++ .keyword word :: .action text :: (tokensOf back).filter Token.isRead := by
    rw [List.filter_append, ← tokensOf_significant, headed, List.append_assoc,
      List.filter_cons_of_pos rfl]
    rfl
  obtain ⟨count, once, grouped, reworded⟩ := Reworded.once
    ⟨word, blockOf (left ++ right), blockOf (left ++ (comment ++ right))⟩ heading
    ((tokensOf back).filter Token.isRead)
  have whole : tokensOf (front ++ ⟨.action (blockOf (left ++ right)), span⟩ :: back) =
      tokensOf front ++ .action (blockOf (left ++ right)) :: tokensOf back := tokensOf_append ..
  rw [← split, ← split, ← tokens, ← whole, ← tokensOf_significant, ← tokensOf_significant] at reworded
  obtain ⟨again, readAgain, declares⟩ := Parse.grammar_reread known once read reworded
  rw [grouped, Change.silent_iff known isComment] at declares
  exact ⟨again, parse_eq_ok.mpr ⟨others, [], scannedToo, readAgain⟩, declares⟩

theorem comment_declared_setting : ∃ found again,
    parse "grammar é; r options \x7b a = b; c \x7d : ;" = .ok found ∧
      parse "grammar é; r options \x7b a = b;// é\r\n c \x7d : ;" = .ok again ∧
        found.DeclaresAs again := by
  have source : withBlock "grammar é; r options ".toList (" a = b;".toList ++ " c ".toList)
      " : ;".toList = "grammar é; r options \x7b a = b; c \x7d : ;" := by decide +kernel
  have other : withBlock "grammar é; r options ".toList
      (" a = b;".toList ++ ("// é\r\n".toList ++ " c ".toList)) " : ;".toList =
        "grammar é; r options \x7b a = b;// é\r\n c \x7d : ;" := by decide +kernel
  have known : (match tokenize "grammar é; r options \x7b a = b; c \x7d : ;" with
    | .ok lexemes => decide (
        lexemes = lexemes.take 9 ++ ⟨.action (blockOf " a = b; c ".toList), .between 22 34⟩ ::
          lexemes.drop 10 ∧
        tokensOf (significant (lexemes.take 9)) =
          [.keyword .grammar, .ruleName "é", .mark .semicolon, .ruleName "r", .keyword .options])
    | .error _ => false) = true := by decide +kernel
  have block : DeclaresIn .options
      [.keyword .grammar, .ruleName "é", .mark .semicolon, .ruleName "r"]
      "grammar é; r options ".toList (" a = b;".toList ++ " c ".toList) " : ;".toList := by
    refine ⟨by decide, ?_⟩
    rw [source]
    cases scanned : tokenize "grammar é; r options \x7b a = b; c \x7d : ;" with
    | error rejection => rw [scanned] at known; cases known
    | ok lexemes =>
        rw [scanned] at known
        obtain ⟨split, heading⟩ := of_decide_eq_true known
        exact ⟨_, _, _, congrArg _ split, by decide +kernel, heading⟩
  have plain : (" a = b;".toList.all fun c => !(['\\', '\'', '"', '/'].contains c)) = true := by
    decide +kernel
  have gap : IsGap " a = b;".toList (" c ".toList ++ '}' :: " : ;".toList) :=
    .of_plain (fun c member => by simpa using List.all_eq_true.mp plain c member) _
  have isComment : IsComment "// é\r\n".toList :=
    @IsComment.line " é".toList (by decide +kernel) ['\r'] (.inr rfl)
  have accepted : (parse "grammar é; r options \x7b a = b; c \x7d : ;").isOk = true := by
    decide +kernel
  cases parsed : parse "grammar é; r options \x7b a = b; c \x7d : ;" with
  | error rejection => rw [parsed] at accepted; cases accepted
  | ok found =>
      obtain ⟨again, parsedAgain, declares⟩ :=
        comment_declared block gap isComment (source ▸ parsed)
      rw [other] at parsedAgain
      exact ⟨found, again, rfl, parsedAgain, declares.mpr (.inr ⟨rfl, by decide +kernel⟩)⟩

/-- A comment in front of a name becomes a part of it. -/
theorem comment_misread : ∃ found again,
    parse "grammar g; tokens \x7b A, B \x7d a : A ;" = .ok found ∧ found.tokens = ["A", "B"] ∧
      parse "grammar g; tokens \x7b /* c */ A, B \x7d a : A ;" = .ok again ∧
        again.tokens = ["/* c */ A", "B"] := by
  have read (source : String) (names : List String)
      (known : (match parse source with
        | .ok found => decide (found.tokens = names)
        | .error _ => false) = true) : ∃ found, parse source = .ok found ∧ found.tokens = names := by
    cases parsed : parse source with
    | error rejection => rw [parsed] at known; cases known
    | ok found =>
        rw [parsed] at known
        exact ⟨found, rfl, of_decide_eq_true known⟩
  obtain ⟨found, parsed, names⟩ :=
    read "grammar g; tokens \x7b A, B \x7d a : A ;" ["A", "B"] (by decide +kernel)
  obtain ⟨again, parsedAgain, namesAgain⟩ :=
    read "grammar g; tokens \x7b /* c */ A, B \x7d a : A ;" ["/* c */ A", "B"] (by decide +kernel)
  exact ⟨found, again, parsed, names, parsedAgain, namesAgain⟩

end Grammar

end Railroad
