import Railroad.Proofs.Diagram.Outline
import Railroad.Proofs.Drawing.Elements
import Railroad.Proofs.Token.Slices

/-!
# What labels show

A label is drawn without the backslashes that escaping has put into it.  It is not known which ones
these are, so some of those that were written are lost with them: of an escaped backslash one is
left, unless it stands in front of `u`, and in literals an escaped quote is left without its
backslash.  Everything else is drawn as it was written.
-/

namespace Railroad

namespace Label

/-- What is shown of a piece, if the characters in `bare` lose their backslash.  A backslash in
front of `u` keeps it. -/
def Piece.shown (bare : List Char) (next : Option Piece) : Piece → List Char
  | plain c => [c]
  | escaped c =>
      if c ∈ bare ∧ ¬(c = '\\' ∧ next = some (plain 'u')) then [c] else ['\\', c]
  | lone => ['\\']

def shown (bare : List Char) : List Piece → List Char
  | [] => []
  | piece :: rest => piece.shown bare rest.head? ++ shown bare rest

/-- What loses its backslash in a character set. -/
def bareInSets : List Char := ['\\']

/-- What loses its backslash in a literal. -/
def bareInLiterals : List Char := ['\\', '\'']

theorem unescapeChars_plain {c : Char} (other : c ≠ '\\') (rest : List Char) :
    unescapeChars (c :: rest) = c :: unescapeChars rest := by
  cases rest with
  | nil => rfl
  | cons next later => rw [unescapeChars, if_neg other]

theorem unescapeChars_eq (text : List Char) :
    unescapeChars text = (pieces text).flatMap (Piece.shown bareInLiterals none) := by
  fun_induction pieces text with
  | case1 => rfl
  | case2 => rfl
  | case3 taken later ih =>
      rw [unescapeChars, if_pos rfl, List.flatMap_cons, ← ih]
      by_cases bare : taken = '\\' ∨ taken = '\''
      · rw [if_pos bare, Piece.shown, if_pos (by simpa [bareInLiterals] using bare)]
        rfl
      · rw [if_neg bare, Piece.shown, if_neg (by simpa [bareInLiterals] using bare)]
        rfl
  | case4 c rest other ih =>
      rw [unescapeChars_plain other, List.flatMap_cons, ← ih]
      rfl

/-- Guarding quotes saves their backslashes. -/
theorem shown_guarded (piece : Piece) :
    piece.guarded.flatMap (Piece.shown bareInLiterals none) = piece.shown bareInSets none := by
  fun_cases Piece.guarded piece <;> simp_all [Piece.shown, bareInSets, bareInLiterals]

/-- Guarding code points saves a backslash in front of `u`. -/
theorem shown_guardedPieces {bare : List Char} (backslash : '\\' ∈ bare) (letter : 'u' ∉ bare)
    (list : List Piece) :
    (guardedPieces list).flatMap (Piece.shown bare none) = shown bare list := by
  fun_induction guardedPieces list with
  | case1 => rfl
  | case2 rest ih => simp [shown, Piece.shown, backslash, letter, ih]
  | case3 rest ih => simp [shown, Piece.shown, backslash, letter, ih]
  | case4 piece rest other free ih =>
      rw [List.flatMap_cons, ih, shown]
      congr 1
      cases piece with
      | plain c => rfl
      | lone => rfl
      | escaped c =>
          have apart : ¬(c = '\\' ∧ rest.head? = some (.plain 'u')) := by
            rintro ⟨rfl, next⟩
            obtain ⟨later, rfl⟩ := List.head?_eq_some_iff.mp next
            exact free later rfl rfl
          simp [Piece.shown, apart]

theorem shown_append {bare : List Char} {c : Char} (other : c ≠ 'u') (first rest : List Piece) :
    shown bare (first ++ .plain c :: rest) = shown bare first ++ c :: shown bare rest := by
  induction first with
  | nil => rfl
  | cons piece later ih =>
      rw [List.cons_append, shown, ih, shown, List.append_assoc]
      congr 1
      cases later with
      | cons next others => rfl
      | nil => cases piece <;> simp [Piece.shown, other]

/-- What a label shows of a quoted text. -/
def shownText (bare : List Char) (text : String) : String :=
  String.ofList (shown bare (pieces text.toList))

theorem unescape_escape (text : String) : unescape (escape text) = shownText bareInSets text := by
  rw [unescape, escape, String.toList_ofList, unescapeChars_eq, escapeChars, pieces_guardQuotes,
    pieces_guardCodePoints, List.flatMap_assoc, funext shown_guarded,
    shown_guardedPieces (by decide) (by decide), shownText]

theorem unescape_append {first second : String} (whole : .lone ∉ pieces first.toList) :
    unescape (first ++ second) = unescape first ++ unescape second := by
  rw [unescape, String.toList_append, unescapeChars_eq, pieces_append whole, List.flatMap_append,
    ← unescapeChars_eq, ← unescapeChars_eq, String.ofList_append]
  rfl

theorem unescape_escapeLiteral {text : String} (shaped : (Token.literal text).Shaped) :
    unescape (escapeLiteral text) = shownText bareInLiterals text := by
  obtain ⟨inner, -, -, quoted, read⟩ := escapeLiteral_pieces shaped
  rw [unescape, unescapeChars_eq, read, shownText, quoted, List.flatMap_cons, List.flatMap_append,
    shown_guardedPieces (by decide) (by decide), shown, shown_append (by decide)]
  rfl

/-- No backslash is lost: of the characters in `bare` only a backslash in front of `u` is escaped. -/
def Intact (bare : List Char) (list : List Piece) : Prop :=
  ∀ front c back, list = front ++ .escaped c :: back → c ∈ bare →
    c = '\\' ∧ back.head? = some (.plain 'u')

theorem intact_nil (bare : List Char) : Intact bare [] := by
  intro front c back split
  cases front <;> cases split

theorem intact_cons {bare : List Char} {piece : Piece} {rest : List Piece} :
    Intact bare (piece :: rest) ↔
      (∀ c, piece = .escaped c → c ∈ bare → c = '\\' ∧ rest.head? = some (.plain 'u')) ∧
        Intact bare rest := by
  constructor
  · refine fun intact => ⟨?_, ?_⟩
    · rintro c rfl member
      exact intact [] c rest rfl member
    · rintro front c back rfl member
      exact intact (piece :: front) c back rfl member
  · rintro ⟨here, later⟩ front c back split member
    cases front with
    | nil =>
        obtain ⟨rfl, rfl⟩ := List.cons.inj split
        exact here c rfl member
    | cons first others =>
        obtain ⟨-, behind⟩ := List.cons.inj split
        exact later others c back behind member

theorem shown_length_le (bare : List Char) (list : List Piece) :
    (shown bare list).length ≤ (list.flatMap Piece.text).length := by
  induction list with
  | nil => exact Nat.le_refl _
  | cons piece rest ih =>
      have here : (piece.shown bare rest.head?).length ≤ piece.text.length := by
        fun_cases Piece.shown bare rest.head? piece <;> simp [Piece.text]
      rw [shown, List.flatMap_cons, List.length_append, List.length_append]
      exact Nat.add_le_add here ih

theorem shown_eq_iff (bare : List Char) (list : List Piece) :
    shown bare list = list.flatMap Piece.text ↔ Intact bare list := by
  induction list with
  | nil => exact iff_of_true rfl (intact_nil bare)
  | cons piece rest ih =>
      have short := shown_length_le bare rest
      rw [intact_cons, ← ih, shown, List.flatMap_cons]
      fun_cases Piece.shown bare rest.head? piece with
      | case1 c => simp [Piece.text]
      | case2 c bared =>
          refine iff_of_false (fun same => ?_) fun intact => bared.2 (intact.1 c rfl bared.1)
          have sizes := congrArg List.length same
          simp only [Piece.text, List.length_append, List.length_cons, List.length_nil] at sizes
          omega
      | case3 c kept =>
          have unbared : ∀ d, Piece.escaped c = .escaped d → d ∈ bare →
              d = '\\' ∧ rest.head? = some (.plain 'u') := by
            rintro d ⟨⟩ member
            exact Decidable.not_not.mp fun other => kept ⟨member, other⟩
          simp only [Piece.text, List.append_cancel_left_eq, and_iff_right unbared]
      | case4 => simp [Piece.text]

theorem shownText_eq_iff {bare : List Char} {text : String} :
    shownText bare text = text ↔ Intact bare (pieces text.toList) := by
  rw [← shown_eq_iff, pieces_text, shownText, ← String.toList_inj, String.toList_ofList]

theorem shownText_length_le (bare : List Char) (text : String) :
    (shownText bare text).toList.length ≤ text.toList.length := by
  have short := shown_length_le bare (pieces text.toList)
  rwa [pieces_text, ← String.toList_ofList (l := shown bare (pieces text.toList))] at short

/-- Without two backslashes side by side no backslash is escaped. -/
theorem intact_of_apart {text : List Char} (apart : ¬['\\', '\\'] <:+: text) :
    Intact bareInSets (pieces text) := by
  intro front c back split member
  cases List.mem_singleton.mp member
  have spelled := pieces_text text
  rw [split, List.flatMap_append, List.flatMap_cons] at spelled
  exact absurd ⟨front.flatMap Piece.text, back.flatMap Piece.text, spelled ▸ by simp [Piece.text]⟩
    apart

/-- Unescaping takes escaping back where no two backslashes stand side by side, and escaping is
one to one on all texts. -/
theorem escape_reversible (text other : String) :
    (¬"\\\\".toList <:+: text.toList → unescape (escape text) = text) ∧
      (escape text = escape other ↔ text = other) := by
  refine ⟨fun apart => ?_, escape_inj, congrArg escape⟩
  rw [unescape_escape, shownText_eq_iff]
  exact intact_of_apart apart

theorem escape_reversible_mixed :
    ¬"\\\\".toList <:+: "\\u\\''u\\é".toList ∧
      unescape (escape "\\u\\''u\\é") = "\\u\\''u\\é" ∧
      (escape "\\u\\''u\\é" = escape "\\\\u" ↔ "\\u\\''u\\é" = "\\\\u") := by
  have apart : ¬"\\\\".toList <:+: "\\u\\''u\\é".toList := by decide
  obtain ⟨back, known⟩ := escape_reversible "\\u\\''u\\é" "\\\\u"
  exact ⟨apart, back apart, known⟩

end Label

/-! ## Terminals -/

/-- What the box of a terminal says for a leaf, given how it says literals and sets. -/
def Atom.terminal? (kind : RuleKind) (literal set : String → String) : Atom → Option String
  | .literal text => some (literal text)
  | .range first last => some (literal first ++ " .. " ++ literal last)
  | .charSet text => some (set text)
  | .wildcard =>
      match kind with
      | .lexer => some anyCharacterLabel
      | .parser => none
  | .reference _ _ | .excluding _ | .excludingAny _ => none

/-- What is written for a leaf. -/
def Atom.written? (kind : RuleKind) : Atom → Option String := Atom.terminal? kind id id

/-- What is drawn for a leaf. -/
def Atom.drawn? (kind : RuleKind) : Atom → Option String :=
  Atom.terminal? kind (Label.shownText Label.bareInLiterals) (Label.shownText Label.bareInSets)

/-- What loses its backslash in the quoted texts of a leaf. -/
def Atom.bare : Atom → List Char
  | .charSet _ => Label.bareInSets
  | _ => Label.bareInLiterals

/-- The quoted texts of a leaf keep all their backslashes. -/
def Atom.Intact (leaf : Atom) : Prop :=
  ∀ text ∈ leaf.quoted, Label.Intact leaf.bare (Label.pieces text.toList)

/-- The label of a terminal shows what is drawn for its leaf. -/
theorem Atom.unescape_terminal? (kind : RuleKind) {leaf : Atom}
    (shaped : ∀ token ∈ leaf.tokens, token.Shaped) :
    (leaf.terminal? kind Label.escapeLiteral Label.escape).map Label.unescape =
      leaf.drawn? kind := by
  cases leaf with
  | literal text =>
      have spelled := shaped (.literal text) (List.mem_singleton_self _)
      exact congrArg some (Label.unescape_escapeLiteral spelled)
  | range first last =>
      have spelled := shaped (.literal first) (by simp [Atom.tokens])
      have spelledToo := shaped (.literal last) (by simp [Atom.tokens])
      have whole := (Label.escapeLiteral_closed spelled).2
      have mark : Label.unescape " .. " = " .. " := by decide
      refine congrArg some ?_
      rw [String.append_assoc, Label.unescape_append whole, Label.unescape_append (by decide), mark,
        Label.unescape_escapeLiteral spelled, Label.unescape_escapeLiteral spelledToo,
        ← String.append_assoc]
  | charSet text => exact congrArg some (Label.unescape_escape text)
  | wildcard =>
      cases kind with
      | lexer => exact congrArg some (by decide)
      | parser => rfl
  | reference _ _ | excluding _ | excludingAny _ => rfl

/-- A leaf is drawn as it is written if and only if all its backslashes are kept. -/
theorem Atom.drawn?_eq_written?_iff (kind : RuleKind) (leaf : Atom) :
    leaf.drawn? kind = leaf.written? kind ↔ leaf.Intact := by
  cases leaf with
  | literal text =>
      rw [Atom.Intact, Atom.quoted, List.forall_mem_singleton, ← Label.shownText_eq_iff]
      exact Option.some_inj
  | range first last =>
      rw [Atom.Intact, Atom.quoted, List.forall_mem_cons, List.forall_mem_singleton,
        ← Label.shownText_eq_iff, ← Label.shownText_eq_iff]
      refine Option.some_inj.trans ⟨fun same => ?_, fun both =>
        congrArg₂ (fun first last => first ++ " .. " ++ last) both.1 both.2⟩
      have short := Label.shownText_length_le Label.bareInLiterals first
      have shortToo := Label.shownText_length_le Label.bareInLiterals last
      have spelled := congrArg String.toList same
      simp only [String.toList_append, id] at spelled
      have sizes := congrArg List.length spelled
      simp only [List.length_append] at sizes
      have firstSize : (Label.shownText Label.bareInLiterals first).toList.length =
          first.toList.length := by omega
      obtain ⟨front, lastSame⟩ := List.append_inj spelled (by simp [firstSize])
      obtain ⟨firstSame, -⟩ := List.append_inj front firstSize
      exact ⟨String.toList_inj.mp firstSame, String.toList_inj.mp lastSame⟩
  | charSet text =>
      rw [Atom.Intact, Atom.quoted, List.forall_mem_singleton, ← Label.shownText_eq_iff]
      exact Option.some_inj
  | wildcard | reference _ _ | excluding _ | excludingAny _ =>
      exact iff_of_true (by cases kind <;> rfl) (List.forall_mem_nil _)

/-- A quoted text spells a token of its leaf. -/
theorem Atom.token_of_quoted {leaf : Atom} {text : String} (member : text ∈ leaf.quoted) :
    ∃ token ∈ leaf.tokens, ∀ slice, token.SpelledBy slice → slice = text.toList := by
  cases leaf with
  | literal own =>
      cases List.mem_singleton.mp member
      exact ⟨.literal text, List.mem_singleton_self _, fun _ spelled => spelled⟩
  | charSet own =>
      cases List.mem_singleton.mp member
      exact ⟨.charSet text, List.mem_singleton_self _, fun _ spelled => spelled⟩
  | range first last =>
      refine ⟨.literal text, ?_, fun _ spelled => spelled⟩
      simp only [Atom.quoted, List.mem_cons, List.not_mem_nil, or_false] at member
      rcases member with rfl | rfl <;> simp [Atom.tokens]
  | reference _ _ | excluding _ | excludingAny _ | wildcard =>
      exact absurd member List.not_mem_nil

namespace Diagram

def terminal? : Diagram → Option String
  | terminal label => some label
  | _ => none

/-- The labels of the terminals, from left to right. -/
def terminals (diagram : Diagram) : List String := diagram.preorder.filterMap terminal?

def terminalsAll (diagrams : List Diagram) : List String :=
  (preorderAll diagrams).filterMap terminal?

@[simp]
theorem terminalsAll_cons (diagram : Diagram) (rest : List Diagram) :
    terminalsAll (diagram :: rest) = diagram.terminals ++ terminalsAll rest := by
  simp only [terminalsAll, preorderAll, List.filterMap_append, terminals]

@[simp]
theorem terminals_sequence (items : List Diagram) : (sequence items).terminals = terminalsAll items :=
  rfl

@[simp]
theorem terminals_choice (selected : Nat) (branches : List Diagram) :
    (choice selected branches).terminals = terminalsAll branches := rfl

@[simp]
theorem terminals_comment (label : String) : (comment label).terminals = [] := rfl

/-- Of the leaves among some nodes, the terminals are captioned as such. -/
theorem terminals_captions (nodes : List Diagram) :
    (((nodes.filterMap leaf?).map fun leaf =>
        (some (Svg.className leaf.1), some (Label.unescape leaf.2))).filter fun caption =>
          caption.1 == some "terminal").map Prod.snd =
      (nodes.filterMap terminal?).map fun label => some (Label.unescape label) := by
  induction nodes with
  | nil => rfl
  | cons node rest ih =>
      cases node with
      | terminal label => exact congrArg (some (Label.unescape label) :: ·) ih
      | _ => exact ih

/-- The captions of terminals are their unescaped labels. -/
theorem svg_terminals (metrics : Metrics Float32) (diagram : Diagram) :
    (((diagram.svg metrics).named "text").filter fun caption =>
        caption.attribute? "class" == some "terminal").map Markup.content? =
      diagram.terminals.map fun label => some (Label.unescape label) := by
  rw [terminals, ← terminals_captions, ← leaves, ← svg_captions metrics, List.filter_map,
    List.map_map]
  rfl

end Diagram

section Leaves

variable (kind : RuleKind)

/-- The labels of terminals come from the leaves. -/
def terminalLabels (leaves : List Atom) : List String :=
  leaves.filterMap (Atom.terminal? kind Label.escapeLiteral Label.escape)

theorem terminalLabels_append (first second : List Atom) :
    terminalLabels kind (first ++ second) =
      terminalLabels kind first ++ terminalLabels kind second :=
  List.filterMap_append ..

@[simp]
theorem Suffix.diagram_terminals (suffix : Option Suffix) (item : Diagram) :
    (Suffix.diagram suffix item).terminals = item.terminals := by
  unfold Suffix.diagram
  split <;> rfl

mutual

theorem Atom.diagram_terminals : ∀ (atom : Atom),
    (atom.diagram kind).terminals = terminalLabels kind atom.leaves
  | .literal _ | .range _ _ | .charSet _ | .reference _ _ => rfl
  | .wildcard => by cases kind <;> rfl
  | .excluding operand => by
      rw [Atom.diagram, Diagram.terminals_sequence, Diagram.terminalsAll_cons,
        Diagram.terminalsAll_cons, Atom.diagram_terminals operand]
      exact List.append_nil _
  | .excludingAny operands => by
      rw [Atom.diagram, Diagram.terminals_sequence, Diagram.terminalsAll_cons,
        Diagram.terminalsAll_cons, Diagram.terminals_choice, atomDiagrams_terminals operands]
      exact List.append_nil _

theorem atomDiagrams_terminals : ∀ (atoms : List Atom),
    Diagram.terminalsAll (atomDiagrams kind atoms) = terminalLabels kind (atomLeaves atoms)
  | [] => rfl
  | atom :: rest => by
      rw [atomDiagrams, Diagram.terminalsAll_cons, Atom.diagram_terminals atom,
        atomDiagrams_terminals rest, ← terminalLabels_append]
      rfl

end

mutual

theorem Content.diagram_terminals : ∀ (content : Content),
    (content.diagram kind).terminals = terminalLabels kind content.leaves
  | .atom atom => Atom.diagram_terminals kind atom
  | .group block => alternativeDiagrams_terminals block
  | .action _ _ => rfl

theorem Element.diagram_terminals : ∀ (element : Element),
    (element.diagram kind).terminals = terminalLabels kind element.leaves
  | ⟨content, _, suffix⟩ => by
      rw [Element.diagram, Suffix.diagram_terminals]
      exact Content.diagram_terminals content

theorem elementDiagrams_terminals : ∀ (elements : List Element),
    Diagram.terminalsAll (elementDiagrams kind elements) =
      terminalLabels kind (elementLeaves elements)
  | [] => rfl
  | element :: rest => by
      rw [elementDiagrams, Diagram.terminalsAll_cons, Element.diagram_terminals element,
        elementDiagrams_terminals rest, ← terminalLabels_append]
      rfl

theorem Alternative.diagram_terminals : ∀ (alternative : Alternative),
    (alternative.diagram kind).terminals = terminalLabels kind alternative.leaves
  | ⟨[], _, _, _⟩ => rfl
  | ⟨element :: rest, _, _, _⟩ => elementDiagrams_terminals (element :: rest)

theorem alternativeDiagrams_terminals : ∀ (block : List Alternative),
    Diagram.terminalsAll (alternativeDiagrams kind block) = terminalLabels kind (blockLeaves block)
  | [] => rfl
  | alternative :: rest => by
      rw [alternativeDiagrams, Diagram.terminalsAll_cons, Alternative.diagram_terminals alternative,
        alternativeDiagrams_terminals rest, ← terminalLabels_append]
      rfl

end

end Leaves

namespace Grammar

variable {source : String} {found : Grammar} {rule : Rule}

/-- The quoted texts of a rule body are cut out of the source. -/
theorem quoted_slice (parsed : parse source = .ok found) (listed : rule ∈ found.rules) {leaf : Atom}
    (inBody : leaf ∈ blockLeaves rule.body) :
    ∀ text ∈ leaf.quoted, ∃ span : Span, span.slice? source.toList = some text.toList := by
  obtain ⟨lexemes, rest, scanned, read⟩ := parse_eq_ok.mp parsed
  obtain ⟨body, declared, kept, -⟩ := body_tokens scanned read listed
  have sliced (token : Token) (inLeaf : token ∈ leaf.tokens) :
      ∃ span : Span, ∃ slice, span.slice? source.toList = some slice ∧ token.SpelledBy slice := by
    have inTokens : token ∈ blockTokens rule.body :=
      mem_joinedBy (blockLeaves_token inLeaf _ inBody)
    rw [← kept] at inTokens
    obtain ⟨lexeme, taken, rfl⟩ := List.mem_map.mp (mem_of_mem_keptFrom _ inTokens)
    have scannedToo := (mem_significant.mp (mem_of_declaredBody declared lexeme taken)).1
    exact ⟨lexeme.span, @Spelled.slices [] _ _ (tokenize_spelled scanned) lexeme scannedToo⟩
  intro text member
  obtain ⟨token, inLeaf, spelled⟩ := leaf.token_of_quoted member
  obtain ⟨span, slice, cut, same⟩ := sliced token inLeaf
  rw [spelled slice same] at cut
  exact ⟨span, cut⟩

/--
The terminals of a rule's drawing say, one after another, what is drawn for the literals, ranges
and character sets of its body and for the wildcards of a lexer rule.  Their texts are slices of
the source, and they are drawn as they are written if and only if they keep all their backslashes.
-/
theorem terminals_drawn (parsed : parse source = .ok found) (listed : rule ∈ found.rules)
    (metrics : Metrics Float32) :
    (((rule.diagram.svg metrics).named "text").filter fun caption =>
        caption.attribute? "class" == some "terminal").map Markup.content? =
      ((blockLeaves rule.body).filterMap (Atom.drawn? rule.kind)).map some ∧
    ∀ leaf ∈ blockLeaves rule.body,
      (∀ text ∈ leaf.quoted, ∃ span : Span, span.slice? source.toList = some text.toList) ∧
        (leaf.drawn? rule.kind = leaf.written? rule.kind ↔ leaf.Intact) := by
  refine ⟨?_, fun leaf inBody =>
    ⟨quoted_slice parsed listed inBody, leaf.drawn?_eq_written?_iff rule.kind⟩⟩
  have labels : rule.diagram.terminals = terminalLabels rule.kind (blockLeaves rule.body) :=
    alternativeDiagrams_terminals rule.kind rule.body
  rw [Diagram.svg_terminals, labels, terminalLabels, List.map_filterMap, List.map_filterMap]
  refine List.filterMap_congr fun leaf inBody => ?_
  rw [← leaf.unescape_terminal? rule.kind (leaf_shaped parsed listed inBody), Option.map_map]
  rfl

theorem terminals_drawn_escapes : ∃ found,
    parse "grammar g; A : ~('\\\\u' | [\\'\\\\]) ('\\'' .. '\\u0041' | . b)* 'é';" = .ok found ∧
      ∀ rule ∈ found.rules,
        (((rule.diagram.svg .standard).named "text").filter fun caption =>
            caption.attribute? "class" == some "terminal").map Markup.content? =
          ((blockLeaves rule.body).filterMap (Atom.drawn? rule.kind)).map some ∧
        ∀ leaf ∈ blockLeaves rule.body,
          (∀ text ∈ leaf.quoted, ∃ span : Span, span.slice?
            ("grammar g; A : ~('\\\\u' | [\\'\\\\]) ('\\'' .. '\\u0041' | . b)* 'é';").toList =
              some text.toList) ∧
            (leaf.drawn? rule.kind = leaf.written? rule.kind ↔ leaf.Intact) := by
  have ok : (parse
      "grammar g; A : ~('\\\\u' | [\\'\\\\]) ('\\'' .. '\\u0041' | . b)* 'é';").isOk = true := by
    decide +kernel
  cases parsed : parse
      "grammar g; A : ~('\\\\u' | [\\'\\\\]) ('\\'' .. '\\u0041' | . b)* 'é';" with
  | error rejection => rw [parsed] at ok; cases ok
  | ok found => exact ⟨found, rfl, fun rule listed => terminals_drawn parsed listed .standard⟩

/-- An escaped quote is drawn without its backslash, which leaves three quotes. -/
theorem terminal_misdrawn : ∃ found rule,
    parse "grammar g; a : '\\'';" = .ok found ∧ rule ∈ found.rules ∧
      rule.diagram.terminals.map Label.unescape = ["'''"] ∧
      (blockLeaves rule.body).filterMap (Atom.written? rule.kind) = ["'\\''"] := by
  have known : (match parse "grammar g; a : '\\'';" with
    | .ok found => found.rules.any fun rule =>
        decide (rule.diagram.terminals.map Label.unescape = ["'''"] ∧
          (blockLeaves rule.body).filterMap (Atom.written? rule.kind) = ["'\\''"])
    | .error _ => false) = true := by decide +kernel
  cases parsed : parse "grammar g; a : '\\'';" with
  | error rejection => rw [parsed] at known; cases known
  | ok found =>
      rw [parsed] at known
      obtain ⟨rule, listed, both⟩ := List.any_eq_true.mp known
      exact ⟨found, rule, rfl, listed, of_decide_eq_true both⟩

end Grammar

end Railroad
