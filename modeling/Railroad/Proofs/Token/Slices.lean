import Railroad.Proofs.Source.Collected
import Railroad.Proofs.Token.Shape

/-!
# Lexemes and their source

The lexemes of a text that is scanned without a fault stand side by side and cover it.  Each token
is spelled by the slice of the source that its span points at; only of blanks and of block comments
the text is not kept.
-/

namespace Railroad

open Scan

/-- The characters of a source that a token may stand for. -/
def Token.SpelledBy : Token → List Char → Prop
  | blanks, slice => ∀ c ∈ slice, Text.isBlank c = true ∧ c ≠ '\n'
  | lineFeed, slice => slice = ['\n']
  | blockComment, slice => ∃ body, slice = "/*".toList ++ body ++ "*/".toList
  | token, slice => slice = token.text.toList

/-- Every lexeme begins where the one before it ends, and none is empty. -/
def Covers : Nat → Nat → List Lexeme → Prop
  | start, stop, [] => start = stop
  | start, stop, lexeme :: rest =>
      lexeme.span.start = start ∧ start < lexeme.span.stop ∧ Covers lexeme.span.stop stop rest

/-- The lexemes of a text that stands behind `offset` bytes, each with its slice of the text. -/
inductive Spelled : Nat → List Char → List Lexeme → Prop where
  | nil {offset : Nat} : Spelled offset [] []
  | cons {offset : Nat} {slice rest : List Char} {token : Token} {lexemes : List Lexeme}
      (nonempty : slice ≠ []) (spelled : token.SpelledBy slice)
      (later : Spelled (offset + byteLength slice) rest lexemes) :
      Spelled offset (slice ++ rest) (⟨token, .between offset (offset + byteLength slice)⟩ :: lexemes)

theorem Covers.start_le {start stop : Nat} {lexemes : List Lexeme}
    (covers : Covers start stop lexemes) : ∀ lexeme ∈ lexemes, start ≤ lexeme.span.start := by
  induction lexemes generalizing start with
  | nil => exact fun _ member => absurd member List.not_mem_nil
  | cons first rest ih =>
      obtain ⟨rfl, nonempty, later⟩ := covers
      intro lexeme member
      rcases List.mem_cons.mp member with rfl | behind
      · exact Nat.le_refl _
      · exact Nat.le_trans (Nat.le_of_lt nonempty) (ih later lexeme behind)

theorem Covers.ordered {start stop : Nat} {lexemes : List Lexeme}
    (covers : Covers start stop lexemes) :
    lexemes.Pairwise fun first second => first.span.stop ≤ second.span.start := by
  induction lexemes generalizing start with
  | nil => exact .nil
  | cons first rest ih => exact .cons covers.2.2.start_le (ih covers.2.2)

theorem Covers.nonempty {start stop : Nat} {lexemes : List Lexeme}
    (covers : Covers start stop lexemes) :
    ∀ lexeme ∈ lexemes, lexeme.span.start < lexeme.span.stop := by
  induction lexemes generalizing start with
  | nil => exact List.forall_mem_nil _
  | cons first rest ih =>
      obtain ⟨rfl, nonempty, later⟩ := covers
      exact List.forall_mem_cons.mpr ⟨nonempty, ih later⟩

/-- No two lexemes stand at the same place. -/
theorem Covers.distinct {start stop : Nat} {lexemes : List Lexeme}
    (covers : Covers start stop lexemes) :
    lexemes.Pairwise fun first second => first.span ≠ second.span := by
  refine covers.ordered.imp_of_mem fun {first second} _ member ordered same => ?_
  rw [same] at ordered
  exact Nat.not_lt_of_le ordered (covers.nonempty second member)

theorem byteLength_toList (text : String) : byteLength text.toList = text.utf8ByteSize := by
  obtain ⟨cs, rfl⟩ : ∃ cs, text = String.ofList cs := ⟨text.toList, String.ofList_toList.symm⟩
  rw [String.toList_ofList]
  induction cs with
  | nil => rfl
  | cons c rest ih => simp [byteLength, ih]

theorem byteLength_pos_of_ne_nil {slice : List Char} (nonempty : slice ≠ []) : 0 < byteLength slice := by
  cases slice with
  | nil => exact absurd rfl nonempty
  | cons c rest => exact Nat.lt_of_lt_of_le c.utf8Size_pos (Nat.le_add_right ..)

theorem Span.between_stop {start stop : Nat} (inOrder : start ≤ stop) :
    (Span.between start stop).stop = stop := Nat.max_eq_right inOrder

/-- A span that is laid over a stretch of a text cuts that stretch out. -/
theorem Span.slice?_between (before slice after : List Char) :
    (Span.between (byteLength before) (byteLength before + byteLength slice)).slice?
      (before ++ (slice ++ after)) = some slice := by
  have stretch : (Span.between (byteLength before) (byteLength before + byteLength slice)).length =
      byteLength slice := by
    rw [Span.length, Span.between_stop (Nat.le_add_right ..)]
    exact Nat.add_sub_cancel_left ..
  rw [Span.slice?, stretch]
  simp only [Span.between, splitBytes_byteLength, Option.map_some]

namespace Spelled

theorem covers {offset : Nat} {text : List Char} {lexemes : List Lexeme}
    (spelled : Spelled offset text lexemes) : Covers offset (offset + byteLength text) lexemes := by
  induction spelled with
  | nil => rfl
  | cons nonempty _ _ ih =>
      have positive := byteLength_pos_of_ne_nil nonempty
      rw [byteLength_append, ← Nat.add_assoc]
      refine ⟨rfl, ?_, ?_⟩
      · rw [Span.between_stop (Nat.le_add_right ..)]
        exact Nat.lt_add_of_pos_right positive
      · rw [Span.between_stop (Nat.le_add_right ..)]
        exact ih

theorem slices {before text : List Char} {lexemes : List Lexeme}
    (spelled : Spelled (byteLength before) text lexemes) :
    ∀ lexeme ∈ lexemes, ∃ slice,
      lexeme.span.slice? (before ++ text) = some slice ∧ lexeme.token.SpelledBy slice := by
  generalize place : byteLength before = offset at spelled
  induction spelled generalizing before with
  | nil => exact fun lexeme member => absurd member List.not_mem_nil
  | @cons offset slice rest token lexemes _ first _ ih =>
      intro lexeme member
      rcases List.mem_cons.mp member with rfl | later
      · rw [← place]
        exact ⟨slice, Span.slice?_between before slice rest, first⟩
      · rw [← List.append_assoc]
        exact ih (by rw [byteLength_append, place]) lexeme later

end Spelled

namespace Scan

theorem take_takeWhile_length (p : Char → Bool) (text : List Char) :
    text.take (text.takeWhile p).length = text.takeWhile p :=
  (List.prefix_iff_eq_take.mp (List.takeWhile_prefix p)).symm

theorem wordToken_spelled (word : String) : (wordToken word).SpelledBy word.toList := by
  unfold wordToken
  split
  next keyword found => exact congrArg String.toList (Keyword.text_eq_of_ofText? found).symm
  next => split <;> rfl

/-- Whatever is scanned is spelled by the characters that were read for it. -/
theorem scan_spelled {c : Char} {rest : List Char} {token : Token} {more : Nat}
    (scanned : scan c rest = .token token more) : token.SpelledBy (c :: rest.take more) := by
  cases tokenAt_of_scan scanned with
  | lineComment body =>
      simp only [Token.SpelledBy, Token.text, String.toList_append, String.toList_ofList]
      rw [Nat.add_comm, List.take_succ_cons, take_takeWhile_length]
      rfl
  | blockComment closed _ =>
      obtain ⟨body, split, _⟩ := closeComment_split closed
      refine ⟨body, ?_⟩
      rw [Nat.add_comm, List.take_succ_cons, split]
      rfl
  | @docComment text length closed _ =>
      obtain ⟨body, split, size⟩ := closeComment_split closed
      have kept : text.take (length - 2) = body := by
        rw [← size, Nat.add_sub_cancel]
        have shorter := congrArg (List.take body.length) split
        rwa [List.take_take, ← size, Nat.min_eq_left (Nat.le_add_right ..), List.take_left]
          at shorter
      simp only [Token.SpelledBy, Token.text, kept, String.toList_append, String.toList_ofList]
      rw [Nat.add_comm, List.take_succ_cons, List.take_succ_cons, split]
      rfl
  | literal | charSet | action => exact String.toList_ofList.symm
  | mark _ found =>
      obtain ⟨run, later, rfl, rfl, text⟩ := mark?_split found
      rw [List.take_left, ← text]
      rfl
  | word =>
      rw [take_takeWhile_length]
      have spelled := wordToken_spelled (String.ofList (c :: rest.takeWhile isWordCharacter))
      rwa [String.toList_ofList] at spelled
  | number =>
      rw [take_takeWhile_length]
      exact String.toList_ofList.symm
  | lineFeed => rfl
  | blanks blank notFeed =>
      rw [take_takeWhile_length]
      intro d member
      rcases List.mem_cons.mp member with rfl | later
      · exact ⟨blank, notFeed⟩
      · have both := List.all_eq_true.mp List.all_takeWhile d later
        rw [Bool.and_eq_true, bne_iff_ne] at both
        exact both

end Scan

/-- Faults are never taken back. -/
theorem lexemesFrom_recorded (offset : Nat) (faults : Collector) (text : List Char) :
    faults.recorded <+: (lexemesFrom offset faults text).2.recorded := by
  fun_induction lexemesFrom offset faults text with
  | case1 => exact List.prefix_rfl
  | case2 offset faults c rest token more scanned stop tail ih => exact ih
  | case3 offset faults c rest code more scanned stop found ended =>
      exact faults.recorded_prefix_emit _
  | case4 offset faults c rest code more scanned stop found goesOn passed ih =>
      exact (faults.recorded_prefix_emit _).trans ih

/-- A scan that ends without a fault has read the whole text. -/
theorem lexemesFrom_spelled {offset : Nat} {faults : Collector} {text : List Char}
    (room : faults.isFull = false)
    (clean : (lexemesFrom offset faults text).2.finish = .ok ()) :
    Spelled offset text (lexemesFrom offset faults text).1 := by
  fun_induction lexemesFrom offset faults text with
  | case1 => exact .nil
  | case2 offset faults c rest token more scanned stop tail ih =>
      have later := ih room clean
      have whole := Spelled.cons (List.cons_ne_nil c _) (scan_spelled scanned) later
      rwa [List.cons_append, List.take_append_drop] at whole
  | case3 offset faults c rest code more scanned stop found ended =>
      exact absurd clean (Collector.finish_ne_ok (faults.mem_emit room _) rfl)
  | case4 offset faults c rest code more scanned stop found goesOn passed ih =>
      have kept := lexemesFrom_recorded (offset + byteLength (c :: rest.take passed)) found
        (rest.drop passed)
      exact absurd clean (Collector.finish_ne_ok (kept.subset (faults.mem_emit room _)) rfl)

theorem tokenize_spelled {source : String} {lexemes : List Lexeme}
    (scanned : tokenize source = .ok lexemes) : Spelled 0 source.toList lexemes := by
  obtain ⟨clean, rfl⟩ := clean_of_tokenize scanned
  exact lexemesFrom_spelled rfl clean

theorem tokenize_distinct {source : String} {lexemes : List Lexeme}
    (scanned : tokenize source = .ok lexemes) :
    lexemes.Pairwise fun first second => first.span ≠ second.span :=
  (tokenize_spelled scanned).covers.distinct

/--
Scanning loses nothing: the lexemes of a source cover it without gaps, the ends of their spans
fall between characters, and every token is spelled by the slice that its span cuts out.
-/
theorem tokenize_covers {source : String} {lexemes : List Lexeme}
    (scanned : tokenize source = .ok lexemes) :
    Covers 0 source.utf8ByteSize lexemes ∧
      ∀ lexeme ∈ lexemes, ∃ slice,
        lexeme.span.slice? source.toList = some slice ∧ lexeme.token.SpelledBy slice := by
  have spelled := tokenize_spelled scanned
  refine ⟨?_, @Spelled.slices [] _ _ spelled⟩
  have covered := spelled.covers
  rwa [Nat.zero_add, byteLength_toList] at covered

theorem tokenize_covers_multibyte : ∃ lexemes,
    tokenize "/**/ /** é */ lexer // a\n Ab: [c\\]] 'ü' .. \x7b d \x7d e -> 12;" = .ok lexemes ∧
      Covers 0 ("/**/ /** é */ lexer // a\n Ab: [c\\]] 'ü' .. \x7b d \x7d e -> 12;").utf8ByteSize
        lexemes ∧
      ∀ lexeme ∈ lexemes, ∃ slice,
        lexeme.span.slice?
            ("/**/ /** é */ lexer // a\n Ab: [c\\]] 'ü' .. \x7b d \x7d e -> 12;").toList =
          some slice ∧ lexeme.token.SpelledBy slice := by
  have ok : (tokenize "/**/ /** é */ lexer // a\n Ab: [c\\]] 'ü' .. \x7b d \x7d e -> 12;").isOk =
      true := by
    decide +kernel
  cases scanned : tokenize "/**/ /** é */ lexer // a\n Ab: [c\\]] 'ü' .. \x7b d \x7d e -> 12;" with
  | error rejection => rw [scanned] at ok; cases ok
  | ok lexemes => exact ⟨lexemes, rfl, tokenize_covers scanned⟩

end Railroad
