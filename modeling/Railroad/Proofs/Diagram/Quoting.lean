import Railroad.Proofs.Diagram.Labels
import Railroad.Proofs.Text.Splitting

/-!
# Labels between quotes

A label stands between single quotes in the specification of a diagram, where it is read from left
to right and every backslash takes the character behind it.  A label is closed if this reading
meets neither a quote on its own nor a backslash at the end; closed labels end where their quotes
say.  What escaping makes of a text is told piece by piece.  It does not see which backslashes are
taken already, and goes wrong in two places: at a quote that is escaped in a character set, and at
`u` behind an escaped backslash.
-/

namespace Railroad

namespace Label

/-- A part of a label that is read from left to right. -/
inductive Piece where
  | plain (c : Char)
  /-- A backslash with the character that it takes. -/
  | escaped (c : Char)
  /-- A backslash at the end, with nothing to take. -/
  | lone
  deriving DecidableEq, Repr

def Piece.text : Piece → List Char
  | plain c => [c]
  | escaped c => ['\\', c]
  | lone => ['\\']

def pieces : List Char → List Piece
  | [] => []
  | c :: rest =>
      if c = '\\' then
        match rest with
        | [] => [.lone]
        | taken :: later => .escaped taken :: pieces later
      else .plain c :: pieces rest

@[simp]
theorem pieces_escaped (c : Char) (rest : List Char) :
    pieces ('\\' :: c :: rest) = .escaped c :: pieces rest := by
  rw [pieces.eq_def]
  simp only [if_true]

theorem pieces_plain {c : Char} (other : c ≠ '\\') (rest : List Char) :
    pieces (c :: rest) = .plain c :: pieces rest := by
  rw [pieces.eq_def]
  simp only [if_neg other]

/-- Nothing is lost by reading. -/
theorem pieces_text (text : List Char) : (pieces text).flatMap Piece.text = text := by
  fun_induction pieces text with
  | case1 => rfl
  | case2 => rfl
  | case3 taken later ih => rw [List.flatMap_cons, ih]; rfl
  | case4 c rest other ih => rw [List.flatMap_cons, ih]; rfl

theorem pieces_append {first : List Char} (whole : .lone ∉ pieces first) (rest : List Char) :
    pieces (first ++ rest) = pieces first ++ pieces rest := by
  fun_induction pieces first with
  | case1 => rfl
  | case2 => exact absurd (List.mem_singleton_self _) whole
  | case3 taken later ih =>
      rw [List.cons_append, List.cons_append, pieces_escaped,
        ih fun member => whole (List.mem_cons_of_mem _ member), List.cons_append]
  | case4 c later other ih =>
      rw [List.cons_append, pieces_plain other,
        ih fun member => whole (List.mem_cons_of_mem _ member), List.cons_append]

/-- Between quotes, the label reaches up to the second of them. -/
def Closed (label : String) : Prop :=
  .plain '\'' ∉ pieces label.toList ∧ .lone ∉ pieces label.toList

instance (label : String) : Decidable (Closed label) := inferInstanceAs (Decidable (_ ∧ _))

/-- A closed label and what stands behind its closing quote are known from the text of both. -/
theorem Closed.append_inj {first second : String} (closed : Closed first)
    (closedToo : Closed second) {rest other : List Char}
    (same : first.toList ++ '\'' :: rest = second.toList ++ '\'' :: other) :
    first = second ∧ rest = other := by
  have read : pieces first.toList ++ .plain '\'' :: pieces rest =
      pieces second.toList ++ .plain '\'' :: pieces other := by
    rw [← pieces_plain (by decide), ← pieces_plain (by decide), ← pieces_append closed.2,
      ← pieces_append closedToo.2, same]
  obtain ⟨labels, -⟩ := append_cons_inj read closed.1 closedToo.1
  have texts : first.toList = second.toList := by
    rw [← pieces_text first.toList, labels, pieces_text]
  rw [texts] at same
  exact ⟨String.toList_inj.mp texts, (List.cons.inj (List.append_cancel_left same)).2⟩

/-- What guarding code points makes of the pieces of a text. -/
def guardedPieces : List Piece → List Piece
  | [] => []
  | .escaped 'u' :: rest => .escaped '\\' :: .plain 'u' :: guardedPieces rest
  | .escaped '\\' :: .plain 'u' :: rest => .escaped '\\' :: .escaped 'u' :: guardedPieces rest
  | piece :: rest => piece :: guardedPieces rest

theorem guardCodePoints_cons {c : Char} {rest : List Char}
    (free : ∀ more, c = '\\' → rest ≠ 'u' :: more) :
    guardCodePoints (c :: rest) = c :: guardCodePoints rest :=
  guardCodePoints.eq_3 c rest free

theorem guardedPieces_cons {piece : Piece} {rest : List Piece} (other : piece ≠ .escaped 'u')
    (free : ∀ more, piece = .escaped '\\' → rest ≠ .plain 'u' :: more) :
    guardedPieces (piece :: rest) = piece :: guardedPieces rest :=
  guardedPieces.eq_4 piece rest other free

theorem guardCodePoints_plain {c : Char} (other : c ≠ '\\') (rest : List Char) :
    guardCodePoints (c :: rest) = c :: guardCodePoints rest :=
  guardCodePoints_cons fun _ same => absurd same other

theorem pieces_guardCodePoints (text : List Char) :
    pieces (guardCodePoints text) = guardedPieces (pieces text) := by
  fun_induction pieces text with
  | case1 => rfl
  | case2 => rfl
  | case3 taken later ih =>
      by_cases point : taken = 'u'
      · subst point
        rw [guardCodePoints, guardedPieces, pieces_escaped, pieces_plain (by decide), ih]
      rw [guardCodePoints_cons fun _ _ same => point (List.cons.inj same).1]
      by_cases exposed : taken = '\\' ∧ ∃ more, later = 'u' :: more
      · -- the second backslash is taken by the first one, and yet it is doubled
        obtain ⟨rfl, more, rfl⟩ := exposed
        rw [guardCodePoints_plain (by decide), pieces_plain (by decide),
          pieces_plain (by decide)] at ih
        rw [guardCodePoints, pieces_escaped, pieces_escaped, pieces_plain (by decide),
          guardedPieces, (List.cons.inj ih).2]
      · rw [guardCodePoints_cons fun more slash same => exposed ⟨slash, more, same⟩,
          pieces_escaped, ih, guardedPieces_cons fun same => point (Piece.escaped.inj same)]
        intro more slash same
        have spelled := pieces_text later
        rw [same] at spelled
        exact exposed ⟨Piece.escaped.inj slash, _, spelled.symm⟩
  | case4 c rest other ih =>
      rw [guardCodePoints_plain other, pieces_plain other, ih]
      rfl

theorem mem_guardedPieces {piece : Piece} {list : List Piece}
    (other : piece ∉ [.plain 'u', .escaped 'u', .escaped '\\']) :
    piece ∈ guardedPieces list ↔ piece ∈ list := by
  fun_induction guardedPieces list with
  | case1 => rfl
  | case2 rest ih => simp_all
  | case3 rest ih => simp_all
  | case4 _ _ _ _ ih => rw [List.mem_cons, List.mem_cons, ih]

/-- A backslash takes `u` where it doubles one that is taken already. -/
theorem escaped_u_mem_guardedPieces {list : List Piece} :
    .escaped 'u' ∈ guardedPieces list ↔ [.escaped '\\', .plain 'u'] <:+: list := by
  fun_induction guardedPieces list with
  | case1 => simp
  | case2 rest ih => simp [ih, List.infix_cons_iff]
  | case3 rest ih => simp [ List.infix_cons_iff]
  | case4 piece rest other free ih =>
      have apart : ¬[.escaped '\\', .plain 'u'] <+: piece :: rest := by
        rintro ⟨more, same⟩
        obtain ⟨rfl, behind⟩ := List.cons.inj same
        exact free more rfl behind.symm
      rw [List.mem_cons, or_iff_right (Ne.symm other), ih, List.infix_cons_iff,
        or_iff_right apart]

/-- What guarding quotes makes of a piece. -/
def Piece.guarded : Piece → List Piece
  | plain c => if c = '\'' then [escaped '\''] else [plain c]
  | escaped c => if c = '\'' then [escaped '\\', plain '\''] else [escaped c]
  | lone => [lone]

theorem pieces_guardQuotes (text : List Char) :
    pieces (guardQuotes text) = (pieces text).flatMap Piece.guarded := by
  fun_induction pieces text with
  | case1 => rfl
  | case2 => rfl
  | case3 taken later ih =>
      rw [guardQuotes, if_neg (by decide), guardQuotes, List.flatMap_cons, ← ih, Piece.guarded]
      split
      · rw [pieces_escaped, pieces_plain (by decide)]
        rfl
      · rw [pieces_escaped]
        rfl
  | case4 c rest other ih =>
      rw [guardQuotes, List.flatMap_cons, ← ih, Piece.guarded]
      split
      · rw [pieces_escaped]
        rfl
      · rw [pieces_plain other]
        rfl

theorem plain_quote_mem_guarded {piece : Piece} :
    .plain '\'' ∈ piece.guarded ↔ piece = .escaped '\'' := by
  fun_cases Piece.guarded piece <;> simp_all [eq_comm]

theorem mem_guarded (other : Piece) (apart : other ∉ [.plain '\'', .escaped '\'', .escaped '\\'])
    {piece : Piece} : other ∈ piece.guarded ↔ piece = other := by
  fun_cases Piece.guarded piece <;> simp_all [eq_comm]

section Escaped

variable {text : List Char}

theorem mem_escapeChars {piece : Piece} : piece ∈ pieces (escapeChars text) ↔
    ∃ inner ∈ guardedPieces (pieces text), piece ∈ inner.guarded := by
  rw [escapeChars, pieces_guardQuotes, pieces_guardCodePoints, List.mem_flatMap]

theorem plain_quote_mem_escapeChars :
    .plain '\'' ∈ pieces (escapeChars text) ↔ .escaped '\'' ∈ pieces text := by
  simp only [mem_escapeChars, plain_quote_mem_guarded, exists_eq_right]
  exact mem_guardedPieces (by decide)

theorem lone_mem_escapeChars : .lone ∈ pieces (escapeChars text) ↔ .lone ∈ pieces text := by
  simp only [mem_escapeChars, mem_guarded .lone (by decide), exists_eq_right]
  exact mem_guardedPieces (by decide)

theorem escaped_u_mem_escapeChars : .escaped 'u' ∈ pieces (escapeChars text) ↔
    [.escaped '\\', .plain 'u'] <:+: pieces text := by
  simp only [mem_escapeChars, mem_guarded (.escaped 'u') (by decide), exists_eq_right]
  exact escaped_u_mem_guardedPieces

end Escaped

/-! ## Scanned texts -/

theorem reach_of_after {found : Scan.Reach} {length more : Nat}
    (same : found.after more = ⟨length + more, true⟩) : found = ⟨length, true⟩ := by
  cases found
  obtain ⟨size, rfl⟩ := Scan.Reach.mk.inj same
  cases Nat.add_right_cancel size
  rfl

/-- What is scanned up to a delimiter holds it only behind backslashes. -/
theorem inner_of_reach {delimiter : Char} {barred body : List Char}
    (closed : Scan.reach delimiter barred body = ⟨body.length, true⟩) :
    ∃ inner, body = inner ++ [delimiter] ∧
      .plain delimiter ∉ pieces inner ∧ .lone ∉ pieces inner := by
  fun_induction Scan.reach delimiter barred body with
  | case1 => cases closed
  | case2 => cases closed
  | case3 taken tail ih =>
      obtain ⟨inner, rfl, apart, whole⟩ := ih (reach_of_after closed)
      exact ⟨'\\' :: taken :: inner, rfl, by simp [apart], by simp [whole]⟩
  | case4 rest notEscape =>
      obtain ⟨size, -⟩ := Scan.Reach.mk.inj closed
      obtain rfl := List.eq_nil_of_length_eq_zero (Nat.succ.inj size).symm
      exact ⟨[], rfl, List.not_mem_nil, List.not_mem_nil⟩
  | case5 c rest notEscape notDelimiter isBarred => cases closed
  | case6 c tail notEscape notDelimiter notBarred ih =>
      obtain ⟨inner, rfl, apart, whole⟩ := ih (reach_of_after closed)
      exact ⟨c :: inner, rfl, by simp [pieces_plain notEscape, apart, Ne.symm notDelimiter],
        by simp [pieces_plain notEscape, whole]⟩

/-- An escaped backslash stands in front of `u`. -/
def Exposed (text : String) : Prop := [.escaped '\\', .plain 'u'] <:+: pieces text.toList

instance (text : String) : Decidable (Exposed text) := inferInstanceAs (Decidable (_ <:+: _))

/-- The label of a literal has the pieces of the literal, with escaped quotes around them. -/
theorem escapeLiteral_pieces {text : String} (shaped : (Token.literal text).Shaped) :
    ∃ inner, .plain '\'' ∉ inner ∧ .lone ∉ inner ∧
      pieces text.toList = .plain '\'' :: (inner ++ [.plain '\'']) ∧
      pieces (escapeLiteral text).toList =
        .escaped '\'' :: (guardedPieces inner ++ [.escaped '\'']) := by
  obtain ⟨body, spelled, closed⟩ := shaped
  obtain ⟨inner, rfl, apart, whole⟩ := inner_of_reach closed
  refine ⟨pieces inner, apart, whole, ?_, ?_⟩
  · rw [spelled, pieces_plain (by decide), pieces_append whole]
    rfl
  · have body : literalBody ('\'' :: (inner ++ ['\''])) = inner := by
      rw [literalBody, if_pos List.getLast?_concat, List.dropLast_concat]
    have guarded : .lone ∉ pieces (guardCodePoints inner) := by
      rwa [pieces_guardCodePoints, mem_guardedPieces (by decide)]
    rw [escapeLiteral, String.toList_ofList, spelled, escapeLiteralChars, body]
    simp only [List.cons_append, List.nil_append]
    rw [pieces_escaped, pieces_append guarded, pieces_guardCodePoints]
    rfl

theorem escapeLiteral_closed {text : String} (shaped : (Token.literal text).Shaped) :
    Closed (escapeLiteral text) := by
  obtain ⟨inner, apart, whole, -, read⟩ := escapeLiteral_pieces shaped
  rw [Closed, read]
  simp [mem_guardedPieces, apart, whole]

theorem escaped_u_mem_escapeLiteral {text : String} (shaped : (Token.literal text).Shaped) :
    .escaped 'u' ∈ pieces (escapeLiteral text).toList ↔ Exposed text := by
  obtain ⟨inner, -, -, quoted, read⟩ := escapeLiteral_pieces shaped
  have apart : ¬[.escaped '\\', .plain 'u'] <:+ inner ++ [.plain '\''] := by
    rw [List.suffix_concat_iff]
    rintro (none | ⟨first, same, -⟩)
    · cases none
    · have last := congrArg List.getLast? same
      rw [List.getLast?_concat] at last
      exact absurd last (by decide)
  rw [Exposed, quoted, read, List.infix_cons_iff, List.infix_concat_iff, or_iff_right apart]
  simp [escaped_u_mem_guardedPieces]

/-- The label of a range is read part by part. -/
theorem pieces_range {first : String} (closed : Closed first) (last : String) :
    pieces (first ++ " .. " ++ last).toList =
      pieces first.toList ++ (" .. ".toList.map Piece.plain ++ pieces last.toList) := by
  have between : pieces " .. ".toList = " .. ".toList.map Piece.plain := by decide
  have whole : .lone ∉ pieces " .. ".toList := by decide
  rw [String.append_assoc, String.toList_append, String.toList_append, pieces_append closed.2,
    pieces_append whole, between]

/-- The label of a character set ends where the set does. -/
theorem lone_not_mem_charSet {text : String} (shaped : (Token.charSet text).Shaped) :
    .lone ∉ pieces text.toList := by
  obtain ⟨body, spelled, closed⟩ := shaped
  obtain ⟨inner, rfl, -, whole⟩ := inner_of_reach closed
  rw [spelled, pieces_plain (by decide), pieces_append whole, pieces_plain (by decide)]
  simp [whole, pieces]

theorem pieces_of_free {text : List Char} (free : '\\' ∉ text) :
    pieces text = text.map Piece.plain := by
  induction text with
  | nil => rfl
  | cons c rest ih =>
      rw [pieces_plain (Ne.symm (List.ne_of_not_mem_cons free)),
        ih (List.not_mem_of_not_mem_cons free), List.map_cons]

/-- What has no signs to escape is closed, and no backslash takes anything in it. -/
theorem closed_of_free {text : String} (free : '\\' ∉ text.toList)
    (unquoted : '\'' ∉ text.toList) :
    Closed text ∧ .escaped 'u' ∉ pieces text.toList := by
  rw [Closed, pieces_of_free free]
  simp [unquoted]

end Label

/-- The literals and character sets of a leaf. -/
def Atom.quoted : Atom → List String
  | .literal text | .charSet text => [text]
  | .range first last => [first, last]
  | .reference _ _ | .excluding _ | .excludingAny _ | .wildcard => []

def Atom.set? : Atom → Option String
  | .charSet text => some text
  | _ => none

open Label

/-- A leaf tells how its label is read: what is escaped too often or not enough. -/
structure Atom.ReadAs (leaf : Atom) (label : String) : Prop where
  whole : .lone ∉ pieces label.toList
  closed : Closed label ↔ ∀ set ∈ leaf.set?, .escaped '\'' ∉ pieces set.toList
  untaken : .escaped 'u' ∉ pieces label.toList ↔ ∀ text ∈ leaf.quoted, ¬Exposed text

theorem Atom.ReadAs.of_free {leaf : Atom} {label : String} (free : '\\' ∉ label.toList)
    (unquoted : '\'' ∉ label.toList) (unset : leaf.set? = none) (bare : leaf.quoted = []) :
    leaf.ReadAs label := by
  obtain ⟨closed, untaken⟩ := closed_of_free free unquoted
  exact ⟨closed.2, by simp [closed, unset], by simp [untaken, bare]⟩

theorem Atom.leafLabel_readAs {kind : RuleKind} {leaf : Atom}
    (shaped : ∀ token ∈ leaf.tokens, token.Shaped) :
    ∀ label ∈ leaf.leafLabel? kind, leaf.ReadAs label := by
  rintro label shown
  cases leaf with
  | literal text =>
      cases shown
      have spelled := shaped (.literal text) (List.mem_singleton_self _)
      have closed := escapeLiteral_closed spelled
      exact ⟨closed.2, by simp [closed, Atom.set?],
        by simp [escaped_u_mem_escapeLiteral spelled, Atom.quoted]⟩
  | range first last =>
      cases shown
      have spelled := shaped (.literal first) (by simp [Atom.tokens])
      have spelledToo := shaped (.literal last) (by simp [Atom.tokens])
      have closed := escapeLiteral_closed spelled
      have closedToo := escapeLiteral_closed spelledToo
      have read := pieces_range closed (escapeLiteral last)
      refine ⟨?_, ?_, ?_⟩
      · rw [read]
        simp [closed.2, closedToo.2]
      · rw [Closed, read]
        simp [closed.1, closed.2, closedToo.1, closedToo.2, Atom.set?]
      · rw [read]
        simp [escaped_u_mem_escapeLiteral spelled, escaped_u_mem_escapeLiteral spelledToo,
          Atom.quoted]
  | charSet text =>
      cases shown
      have whole := lone_not_mem_charSet (shaped (.charSet text) (List.mem_singleton_self _))
      refine ⟨?_, ?_, ?_⟩
      · rwa [escape, String.toList_ofList, lone_mem_escapeChars]
      · simp [Closed, escape, plain_quote_mem_escapeChars, lone_mem_escapeChars, whole, Atom.set?]
      · simp [escape, escaped_u_mem_escapeChars, Exposed, Atom.quoted]
  | reference name arguments =>
      have isWord : IsWord name.value := isWord_of_shaped (shaped _ (List.mem_cons_self ..))
      rw [Atom.leafLabel?, Label.escape_of_isWord isWord] at shown
      cases shown
      exact .of_free (isWord.not_mem (by decide)) (isWord.not_mem (by decide)) rfl rfl
  | wildcard =>
      cases kind with
      | lexer => cases shown; exact .of_free (by decide) (by decide) rfl rfl
      | parser => cases shown; exact .of_free (by decide) (by decide) rfl rfl
  | excluding operand => cases shown
  | excludingAny operands => cases shown

/-- A leaf without a label has no text that could be escaped. -/
theorem Atom.bare_of_leafLabel? {kind : RuleKind} {leaf : Atom}
    (hidden : leaf.leafLabel? kind = none) : leaf.set? = none ∧ leaf.quoted = [] := by
  cases leaf with
  | excluding _ | excludingAny _ => exact ⟨rfl, rfl⟩
  | wildcard => exact ⟨rfl, rfl⟩
  | literal _ | range _ _ | charSet _ | reference _ _ => cases hidden

/--
Labels never end in a backslash with nothing to take.  They are closed but for sets in which a
quote is escaped, and a backslash takes `u` only where one that is escaped stands in front of it.
-/
theorem Grammar.labels_quoted {source : String} {found : Grammar}
    (parsed : Grammar.parse source = .ok found) {rule : Rule} (listed : rule ∈ found.rules) :
    (∀ label ∈ rule.diagram.labels, .lone ∉ pieces label.toList) ∧
      ((∀ label ∈ rule.diagram.labels, Closed label) ↔
        ∀ leaf ∈ blockLeaves rule.body, ∀ set ∈ leaf.set?,
          .escaped '\'' ∉ pieces set.toList) ∧
      ((∀ label ∈ rule.diagram.labels, .escaped 'u' ∉ pieces label.toList) ↔
        ∀ leaf ∈ blockLeaves rule.body, ∀ text ∈ leaf.quoted, ¬Exposed text) := by
  have read (leaf : Atom) (inBody : leaf ∈ blockLeaves rule.body) :
      ∀ label ∈ leaf.leafLabel? rule.kind, leaf.ReadAs label :=
    Atom.leafLabel_readAs (leaf_shaped parsed listed inBody)
  have remarked (text : String) (known : text ∈ remarks) :
      Closed text ∧ .escaped 'u' ∉ pieces text.toList := by
    have free : ∀ text ∈ remarks, '\\' ∉ text.toList ∧ '\'' ∉ text.toList := by decide
    exact closed_of_free (free text known).1 (free text known).2
  refine ⟨?_, ?_, ?_⟩
  · refine (rule.forall_labels fun text known => (remarked text known).1.2).mpr ?_
    exact fun leaf inBody label shown => (read leaf inBody label shown).whole
  · refine (rule.forall_labels fun text known => (remarked text known).1).trans
      (forall₂_congr fun leaf inBody => ?_)
    cases label : leaf.leafLabel? rule.kind with
    | none => simp [Atom.bare_of_leafLabel? label]
    | some label => simp [(read leaf inBody _ label).closed]
  · refine (rule.forall_labels fun text known => (remarked text known).2).trans
      (forall₂_congr fun leaf inBody => ?_)
    cases label : leaf.leafLabel? rule.kind with
    | none => simp [Atom.bare_of_leafLabel? label]
    | some label => simp [(read leaf inBody _ label).untaken]

theorem Grammar.labels_quoted_escapes : ∃ found,
    Grammar.parse "grammar g; a : ~('\\\\u' | [\\']) ('\\'' .. '\\u0041' | . b)*;" = .ok found ∧
      ∀ rule ∈ found.rules,
        (∀ label ∈ rule.diagram.labels, .lone ∉ pieces label.toList) ∧
          ((∀ label ∈ rule.diagram.labels, Closed label) ↔
            ∀ leaf ∈ blockLeaves rule.body, ∀ set ∈ leaf.set?,
              .escaped '\'' ∉ pieces set.toList) ∧
          ((∀ label ∈ rule.diagram.labels, .escaped 'u' ∉ pieces label.toList) ↔
            ∀ leaf ∈ blockLeaves rule.body, ∀ text ∈ leaf.quoted, ¬Exposed text) := by
  have ok : (Grammar.parse
      "grammar g; a : ~('\\\\u' | [\\']) ('\\'' .. '\\u0041' | . b)*;").isOk = true := by
    decide +kernel
  cases parsed : Grammar.parse
      "grammar g; a : ~('\\\\u' | [\\']) ('\\'' .. '\\u0041' | . b)*;" with
  | error rejection => rw [parsed] at ok; cases ok
  | ok found => exact ⟨found, rfl, fun rule listed => labels_quoted parsed listed⟩

/-- A quote ends the label of a set too early, and a backslash takes `u` in that of a literal. -/
theorem Grammar.labels_misquoted : ∃ found diagram,
    Grammar.parse "grammar g; a : [\\'] '\\\\u';" = .ok found ∧
      found.drawn.diagram? "a" = some diagram ∧
      (∃ label ∈ diagram.labels, ¬Closed label) ∧
      ∃ label ∈ diagram.labels, .escaped 'u' ∈ pieces label.toList := by
  have known : (match Grammar.parse "grammar g; a : [\\'] '\\\\u';" with
    | .ok found => decide ((found.drawn.diagram? "a").map Diagram.labels =
        some ["[\\\\']", "\\'\\\\\\u\\'"])
    | .error _ => false) = true := by decide +kernel
  cases parsed : Grammar.parse "grammar g; a : [\\'] '\\\\u';" with
  | error rejection => rw [parsed] at known; cases known
  | ok found =>
      rw [parsed] at known
      obtain ⟨diagram, drawn, labels⟩ := Option.map_eq_some_iff.mp (of_decide_eq_true known)
      refine ⟨found, diagram, rfl, drawn, ⟨"[\\\\']", ?_, ?_⟩, ⟨"\\'\\\\\\u\\'", ?_, ?_⟩⟩
      · simp [labels]
      · simp [Closed, pieces]
      · simp [labels]
      · simp [pieces]

end Railroad
