import Railroad.Proofs.Printing.Standing
import Railroad.Proofs.Token.Local
import Railroad.Proofs.Token.Pieces

/-!
# Scanning a source with an insertion

A source is scanned as before when a comment is put between two pieces of a block: the tokens in
front of the block and those behind it stay, and the block gets the comment into its text.
-/

namespace Railroad

open Scan

/-- A text is scanned as some tokens, up to the place where the rest of it stands. -/
inductive ScannedTo (rest : List Char) : List Token → List Char → Prop where
  | here : ScannedTo rest [] rest
  | token {c : Char} {run later : List Char} {token : Token} {tokens : List Token}
      (scanned : scan c (run ++ later) = .token token run.length)
      (behind : ScannedTo rest tokens later) : ScannedTo rest (token :: tokens) (c :: (run ++ later))

namespace ScannedTo

variable {rest middle text : List Char} {tokens others : List Token}

theorem append (front : ScannedTo middle tokens text) (back : ScannedTo rest others middle) :
    ScannedTo rest (tokens ++ others) text := by
  induction front with
  | here => exact back
  | token scanned _ ih => exact .token scanned ih

/-- Tokens in front of a block are scanned again when something is put into it. -/
theorem inserted {comment behind : List Char} (inert : Inert comment) (nonempty : middle ≠ [])
    (tidy : '\\' ∉ middle.getLast?) (scanned : ScannedTo (middle ++ behind) tokens text) :
    ∃ before, text = before ++ (middle ++ behind) ∧
      ScannedTo (middle ++ (comment ++ behind)) tokens (before ++ (middle ++ (comment ++ behind))) := by
  induction scanned with
  | here => exact ⟨[], rfl, .here⟩
  | @token c run later token tokens scanned _ ih =>
      obtain ⟨before, rfl, again⟩ := ih
      refine ⟨c :: (run ++ before), by simp, ?_⟩
      have here : scan c (run ++ (before ++ (middle ++ (comment ++ behind)))) =
          .token token run.length := by
        refine scan_iff.mpr ((scan_iff.mp scanned).again ?_ fun closed => ?_)
        · obtain ⟨d, others, rfl⟩ := List.exists_cons_of_ne_nil nonempty
          have same : (d :: (others ++ behind)).head? = (d :: (others ++ (comment ++ behind))).head? :=
            rfl
          exact head?_inserted same before
        · rw [← List.append_assoc before] at closed ⊢
          refine blockLength_before inert closed ?_ ?_
          · exact List.append_ne_nil_of_right_ne_nil _ nonempty
          · rwa [List.getLast?_append_of_ne_nil _ nonempty]
      have whole := ScannedTo.token here again
      rwa [← List.append_assoc run] at whole

/-- A text that is scanned to its end has no faults. -/
theorem lexemes (scanned : ScannedTo [] tokens text) (offset : Nat) (faults : Collector) :
    ∃ lexemes, lexemesFrom offset faults text = (lexemes, faults) ∧ tokensOf lexemes = tokens := by
  induction scanned generalizing offset with
  | here => exact ⟨[], by rw [lexemesFrom], rfl⟩
  | @token c run later token tokens scanned _ ih =>
      obtain ⟨lexemes, behind, same⟩ := ih (offset + byteLength (c :: run))
      rw [lexemesFrom_token scanned, List.take_left, List.drop_left, behind]
      exact ⟨_, rfl, congrArg (token :: ·) same⟩

theorem tokenize {source : String} (scanned : ScannedTo [] tokens source.toList) :
    ∃ lexemes, Railroad.tokenize source = .ok lexemes ∧ tokensOf lexemes = tokens := by
  obtain ⟨lexemes, found, same⟩ := scanned.lexemes 0 (.withLimit Collector.defaultLimit)
  refine ⟨lexemes, ?_, same⟩
  rw [Railroad.tokenize, found]
  rfl

end ScannedTo

section Clean

variable {offset : Nat} {faults : Collector} {text : List Char}

/-- The first lexeme of a scan without a fault. -/
theorem lexemesFrom_first {lexeme : Lexeme} {lexemes : List Lexeme}
    (room : faults.isFull = false) (clean : (lexemesFrom offset faults text).2.finish = .ok ())
    (split : (lexemesFrom offset faults text).1 = lexeme :: lexemes) :
    ∃ c run later, text = c :: (run ++ later) ∧
      scan c (run ++ later) = .token lexeme.token run.length ∧ lexeme.span.start = offset ∧
      (lexemesFrom (offset + byteLength (c :: run)) faults later).1 = lexemes ∧
      (lexemesFrom (offset + byteLength (c :: run)) faults later).2.finish = .ok () := by
  cases text with
  | nil =>
      rw [lexemesFrom] at split
      cases split
  | cons c rest =>
      obtain ⟨token, more, scanned⟩ := scan_of_clean room clean
      obtain ⟨run, later, rfl, rfl⟩ : ∃ run later, rest = run ++ later ∧ run.length = more :=
        ⟨_, _, (List.take_append_drop more rest).symm, List.length_take_of_le (scan_iff.mp scanned).more_le⟩
      rw [lexemesFrom_token scanned, List.take_left, List.drop_left] at split clean
      obtain ⟨rfl, rfl⟩ := List.cons.inj split
      exact ⟨c, run, later, rfl, scanned, rfl, rfl, clean⟩

/-- Where a scan without a fault goes on behind some lexemes. -/
theorem lexemesFrom_behind {front back : List Lexeme} (room : faults.isFull = false)
    (clean : (lexemesFrom offset faults text).2.finish = .ok ())
    (split : (lexemesFrom offset faults text).1 = front ++ back) :
    ∃ before middle, text = before ++ middle ∧ ScannedTo middle (tokensOf front) text ∧
      (lexemesFrom (offset + byteLength before) faults middle).1 = back ∧
      (lexemesFrom (offset + byteLength before) faults middle).2.finish = .ok () := by
  induction front generalizing offset text with
  | nil => exact ⟨[], text, rfl, .here, split, clean⟩
  | cons lexeme front ih =>
      obtain ⟨c, run, later, rfl, scanned, -, splitLater, cleanLater⟩ :=
        lexemesFrom_first room clean split
      obtain ⟨before, middle, rfl, reached, behind, cleanBehind⟩ := ih cleanLater splitLater
      refine ⟨c :: (run ++ before), middle, by simp, .token scanned reached, ?_, ?_⟩
      all_goals
        rw [← List.cons_append, byteLength_append, ← Nat.add_assoc]
        assumption

/-- A scan without a fault reaches the end. -/
theorem scannedTo_of_clean (room : faults.isFull = false)
    (clean : (lexemesFrom offset faults text).2.finish = .ok ()) :
    ScannedTo [] (tokensOf (lexemesFrom offset faults text).1) text := by
  obtain ⟨before, middle, -, reached, none, cleanBehind⟩ :=
    lexemesFrom_behind room clean (List.append_nil _).symm
  cases middle with
  | nil => exact reached
  | cons c rest =>
      obtain ⟨token, more, scanned⟩ := scan_of_clean room cleanBehind
      rw [lexemesFrom_token scanned] at none
      cases none

end Clean

theorem byteLength_inj {before other rest later : List Char}
    (same : before ++ rest = other ++ later) (size : byteLength before = byteLength other) :
    before = other ∧ rest = later := by
  have split := splitBytes_byteLength before rest
  rw [same, size, splitBytes_byteLength] at split
  exact (Prod.mk.inj (Option.some.inj split)).imp Eq.symm Eq.symm

/-- The source with a block between two texts. -/
def withBlock (before body behind : List Char) : String :=
  String.ofList (before ++ '{' :: (body ++ '}' :: behind))

/-- The text of a block. -/
def blockOf (body : List Char) : String := String.ofList ('{' :: (body ++ ['}']))

/-- A place between two pieces of a block, behind none that reaches over it. -/
structure IsGap (left right : List Char) : Prop where
  pieces : ∃ list, ReadsAs (left ++ right) list right ∧ ∀ last ∈ list.getLast?, last.Ends
  tidy : '\\' ∉ left.getLast?

/-- Behind characters that begin nothing longer, every place is a gap. -/
theorem IsGap.of_plain {left : List Char} (plain : ∀ c ∈ left, c ∉ ['\\', '\'', '"', '/'])
    (right : List Char) : IsGap left right := by
  have apart {c : Char} (member : c ∈ left) : c ≠ '\\' ∧ ¬(c = '\'' ∨ c = '"') ∧ c ≠ '/' := by
    simpa [not_or, and_assoc] using plain c member
  have texts (run : List Char) : Scan.blockText (run.map .single) = run := by
    induction run with
    | nil => rfl
    | cons c rest ih => exact congrArg (c :: ·) ih
  have fit : ∀ run : List Char, run ⊆ left → AllFit right (run.map .single) := by
    intro run inside
    induction run with
    | nil => trivial
    | cons c rest ih =>
        obtain ⟨escape, quote, slash⟩ := apart (inside (List.mem_cons_self ..))
        exact ⟨fits_single escape quote slash _, ih (List.subset_of_cons_subset inside)⟩
  refine ⟨⟨left.map .single, ⟨by rw [texts], fit left (List.Subset.refl _)⟩, ?_⟩, fun last => ?_⟩
  · rw [List.getLast?_map]
    rintro _ last
    obtain ⟨c, isLast, rfl⟩ := Option.map_eq_some_iff.mp last
    obtain ⟨escape, -, slash⟩ := apart (List.mem_of_getLast? isLast)
    exact ⟨slash, escape⟩
  · exact (apart (List.mem_of_getLast? last)).1 rfl

/-- A block with a comment in a gap is closed by its own last brace. -/
theorem scan_block_inserted {left right behind comment : List Char}
    (gap : IsGap left (right ++ '}' :: behind)) (isComment : IsComment comment)
    (stands : (Token.action (blockOf (left ++ right))).StandsBefore behind) :
    (Token.action (blockOf (left ++ (comment ++ right)))).StandsBefore behind := by
  obtain ⟨⟨list, ⟨spelled, fit⟩, ends⟩, tidy⟩ := gap
  obtain rfl := List.append_cancel_right spelled
  obtain ⟨pieces, rfl, fitPieces, plain⟩ := isComment.pieces
  have closed := stands _ rfl
  have texts (body : List Char) : (blockOf body).toList.tail = body ++ ['}'] := by
    rw [blockOf, String.toList_ofList, List.tail_cons]
  rintro _ ⟨⟩
  simp only [texts, List.append_assoc, List.singleton_append] at closed ⊢
  rw [blockLength_inserted closed ?_ fit isComment.inert tidy ends (fitPieces _) plain]
  · simp only [List.length_append]
    exact congrArg some (by omega)
  · simp only [List.length_append, List.length_singleton]
    omega

theorem scan_standing {body behind : List Char}
    (stands : (Token.action (blockOf body)).StandsBefore behind) :
    scan '{' ((body ++ ['}']) ++ behind) = .token (.action (blockOf body)) (body ++ ['}']).length := by
  have closes := stands _ rfl
  rw [blockOf, String.toList_ofList, List.tail_cons] at closes
  exact scan_action String.toList_ofList closes

/-- The tokens in front of a block, the block and the tokens behind it are scanned one after
another. -/
theorem tokenize_block {before body behind : List Char} {front back : List Lexeme} {span : Span}
    (scanned : tokenize (withBlock before body behind) =
      .ok (front ++ ⟨.action (blockOf body), span⟩ :: back))
    (place : span.start = byteLength before) :
    ScannedTo ('{' :: (body ++ '}' :: behind)) (tokensOf front)
        (before ++ '{' :: (body ++ '}' :: behind)) ∧
      (Token.action (blockOf body)).StandsBefore behind ∧ ScannedTo [] (tokensOf back) behind := by
  obtain ⟨clean, read⟩ := clean_of_tokenize scanned
  obtain ⟨start, middle, whole, reached, split, cleanBehind⟩ := lexemesFrom_behind rfl clean read
  obtain ⟨c, run, later, rfl, action, starts, rest, cleanRest⟩ :=
    lexemesFrom_first rfl cleanBehind split
  have behindBlock := scannedTo_of_clean rfl cleanRest
  rw [rest] at behindBlock
  -- the lexeme that begins at the place of the block is the block
  rw [withBlock, String.toList_ofList] at whole reached
  rw [Nat.zero_add] at starts
  obtain ⟨rfl, block⟩ := byteLength_inj whole (place.symm.trans starts)
  obtain ⟨rfl, texts⟩ := List.cons.inj block
  have spelled : '{' :: run = '{' :: (body ++ ['}']) := by
    have slice : '{' :: (run ++ later).take run.length = (blockOf body).toList :=
      scan_spelled action
    rwa [List.take_left, blockOf, String.toList_ofList] at slice
  obtain ⟨-, rfl⟩ := List.cons.inj spelled
  have joined : body ++ ['}'] ++ later = body ++ '}' :: later := List.append_assoc ..
  rw [joined] at texts reached
  obtain ⟨-, rfl⟩ := List.cons.inj (List.append_cancel_left texts)
  exact ⟨reached, stands_of_scan String.toList_ofList action, behindBlock⟩

/--
A comment in a gap of a block comes into the text of the block.  The tokens in front of the block
and those behind it stay.
-/
theorem tokenize_inserted {before left right behind comment : List Char} {front back : List Lexeme}
    {span : Span} (gap : IsGap left (right ++ '}' :: behind)) (isComment : IsComment comment)
    (scanned : tokenize (withBlock before (left ++ right) behind) =
      .ok (front ++ ⟨.action (blockOf (left ++ right)), span⟩ :: back))
    (place : span.start = byteLength before) :
    ∃ lexemes, tokenize (withBlock before (left ++ (comment ++ right)) behind) = .ok lexemes ∧
      tokensOf lexemes =
        tokensOf front ++ .action (blockOf (left ++ (comment ++ right))) :: tokensOf back := by
  obtain ⟨reached, stands, rest⟩ := tokenize_block scanned place
  have block := scan_standing (scan_block_inserted gap isComment stands)
  have tidy : '\\' ∉ ('{' :: left).getLast? := by
    cases left with
    | nil => decide
    | cons c others =>
        rw [List.getLast?_cons_cons]
        exact gap.tidy
  have inFront : ScannedTo (('{' :: left) ++ (right ++ '}' :: behind)) (tokensOf front)
      (before ++ '{' :: (left ++ (right ++ '}' :: behind))) := by
    rw [List.append_assoc] at reached
    exact reached
  obtain ⟨start, cut, again⟩ := inFront.inserted isComment.inert (List.cons_ne_nil _ _) tidy
  obtain rfl := List.append_cancel_right cut
  refine ScannedTo.tokenize ?_
  have whole := ScannedTo.token block rest
  simp only [List.append_assoc, List.cons_append] at again whole
  rw [withBlock, String.toList_ofList]
  simp only [List.append_assoc]
  exact again.append whole

end Railroad
