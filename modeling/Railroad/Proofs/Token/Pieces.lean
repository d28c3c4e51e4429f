import Railroad.Proofs.Printing.Rescan
import Railroad.Proofs.Token.Blocks

/-!
# Pieces that stand in a block

A piece of a block that fits where it stands is scanned there.  So how a block goes on behind some
pieces depends on nothing in them but the braces that they leave open, and the same pieces can be
read in front of something else, as long as the last of them does not take it in and no open quote
among them meets a partner in it.
-/

namespace Railroad

open Label

namespace Scan

open BlockPiece

/-- A quote is closed by the first quote that no backslash takes. -/
theorem reach_quoted {quote : Char} (known : quote = '\'' ∨ quote = '"') {body : List Char}
    (apart : .plain quote ∉ pieces body) (inLine : .plain '\n' ∉ pieces body)
    (whole : .lone ∉ pieces body) (rest : List Char) :
    reach quote ['\n'] (body ++ quote :: rest) = ⟨body.length + 1, true⟩ := by
  have notEscape : quote ≠ '\\' := by rcases known with rfl | rfl <;> decide
  fun_induction pieces body with
  | case1 => rw [List.nil_append, reach.eq_def]; simp only [if_neg notEscape, if_true]; rfl
  | case2 => exact absurd (List.mem_singleton_self _) whole
  | case3 taken later ih =>
      have inner := ih (fun member => apart (List.mem_cons_of_mem _ member))
        (fun member => inLine (List.mem_cons_of_mem _ member))
        fun member => whole (List.mem_cons_of_mem _ member)
      rw [List.cons_append, List.cons_append, reach.eq_def]
      simp only [if_true, inner]
      rfl
  | case4 c later other ih =>
      have inner := ih (fun member => apart (List.mem_cons_of_mem _ member))
        (fun member => inLine (List.mem_cons_of_mem _ member))
        fun member => whole (List.mem_cons_of_mem _ member)
      have notQuote : c ≠ quote := fun same => apart (same ▸ List.mem_cons_self ..)
      have notFeed : c ∉ ['\n'] := fun feed =>
        inLine (List.mem_singleton.mp feed ▸ List.mem_cons_self ..)
      rw [List.cons_append, reach.eq_def]
      simp only [if_neg other, if_neg notQuote, if_neg notFeed, inner]
      rfl

theorem closeComment_text {body : List Char} (first : ¬commentEnd <:+: body ++ ['*'])
    (rest : List Char) : closeComment (body ++ (commentEnd ++ rest)) = some (body.length + 2) := by
  induction body with
  | nil => rfl
  | cons c tail ih =>
      rw [List.cons_append, commentEnd_infix_cons, not_or] at first
      rw [List.cons_append, closeComment.eq_def]
      split
      next none => cases none
      next later same =>
        obtain ⟨star, split⟩ := List.cons.inj same
        refine absurd ⟨star, ?_⟩ first.1
        cases tail with
        | nil => cases (List.cons.inj split).1
        | cons d others => exact congrArg some (List.cons.inj split).1
      next same =>
        obtain ⟨-, rfl⟩ := List.cons.inj same
        rw [ih first.2]
        rfl

/-- What fits is scanned as one piece. -/
theorem pieceMore_of_fits {piece : BlockPiece} {c : Char} {run behind : List Char}
    (fits : piece.Fits behind) (spelled : piece.text = c :: run) :
    pieceMore c (run ++ behind) = some run.length := by
  cases piece with
  | single sign =>
      obtain ⟨rfl, rfl⟩ := List.cons.inj spelled
      obtain ⟨escape, quote, slash⟩ := fits
      rw [List.nil_append]
      by_cases isEscape : sign = '\\'
      · rw [escape isEscape, isEscape]
        rfl
      by_cases isQuote : sign = '\'' ∨ sign = '"'
      · have free : sign ∉ ['\n'] := by rcases isQuote with rfl | rfl <;> decide
        have unclosed : ¬(reach sign ['\n'] behind).closed = true := fun closed =>
          quote isQuote ((reach_closed_iff free behind).mp closed)
        simp only [pieceMore, if_neg isEscape, if_pos isQuote, if_neg unclosed, List.length_nil]
      by_cases isSlash : sign = '/'
      · subst isSlash
        obtain ⟨line, star⟩ := slash rfl
        cases behind with
        | nil => rfl
        | cons d tail => exact pieceMore_slash (line <| congrArg some ·) (star <| congrArg some ·) tail
      · exact pieceMore_single isEscape (not_or.mp isQuote) isSlash behind
  | escaped taken =>
      obtain ⟨rfl, rfl⟩ := List.cons.inj spelled
      simp only [pieceMore, if_true, List.singleton_append, List.length_cons, List.length_nil,
        Nat.le_add_left, Nat.min_eq_left]
  | quoted quote body =>
      obtain ⟨rfl, rfl⟩ := List.cons.inj spelled
      obtain ⟨known, free⟩ := fits
      simp only [List.forall_mem_cons, List.not_mem_nil, false_implies, implies_true,
        and_true] at free
      have notEscape : quote ≠ '\\' := by rcases known with rfl | rfl <;> decide
      rw [List.append_assoc, List.singleton_append]
      simp only [pieceMore, if_neg notEscape, if_pos known,
        reach_quoted known free.1 free.2.1 free.2.2, if_true, List.length_append,
        List.length_singleton]
  | lineComment body =>
      obtain ⟨rfl, rfl⟩ := List.cons.inj spelled
      obtain ⟨inLine, ends⟩ := fits
      have run : (body ++ behind).takeWhile (fun d => d != '\n') = body := by
        refine takeWhile_append_stop (fun c member => ?_) fun c next => ?_
        · exact bne_iff_ne.mpr fun feed => inLine (feed ▸ member)
        · rw [ends c next]
          rfl
      have comment : pieceMore '/' ('/' :: (body ++ behind)) =
          some (1 + ((body ++ behind).takeWhile fun d => d != '\n').length) := rfl
      rw [List.cons_append, comment, run, List.length_cons, Nat.add_comm]
  | blockComment body =>
      obtain ⟨rfl, rfl⟩ := List.cons.inj spelled
      have comment : pieceMore '/' ('*' :: (body ++ (commentEnd ++ behind))) =
          (closeComment (body ++ (commentEnd ++ behind))).map (1 + ·) := rfl
      rw [List.cons_append, List.append_assoc, comment, closeComment_text fits, Option.map_some,
        List.length_cons, List.length_append, Nat.add_comm]
      rfl

theorem blockText_cons (piece : BlockPiece) (list : List BlockPiece) :
    blockText (piece :: list) = piece.text ++ blockText list := rfl

theorem first_of_fits {piece : BlockPiece} {behind : List Char} (fits : piece.Fits behind) :
    ∃ c run, piece.text = c :: run ∧ (c = '{' ↔ piece = single '{') ∧
      (c = '}' ↔ piece = single '}') := by
  cases piece with
  | single c => exact ⟨c, [], rfl, by simp, by simp⟩
  | escaped c => exact ⟨'\\', [c], rfl, by simp, by simp⟩
  | quoted quote body =>
      have apart : quote ≠ '{' ∧ quote ≠ '}' := by rcases fits.1 with rfl | rfl <;> decide
      exact ⟨quote, _, rfl, by simp [apart], by simp [apart]⟩
  | lineComment body | blockComment body => exact ⟨'/', _, rfl, by simp, by simp⟩

/-- One piece of a block that does not close it. -/
theorem blockLength_fits {piece : BlockPiece} {behind : List Char} (fits : piece.Fits behind)
    (goesOn : piece ≠ single '}') (depth : Nat) : blockLength depth (piece.text ++ behind) =
      (blockLength (if piece = single '{' then depth + 1 else depth) behind).map
        (· + piece.text.length) := by
  obtain ⟨c, run, spelled, opens, closes⟩ := first_of_fits fits
  rw [spelled, List.cons_append, blockLength_piece (mt closes.mp goesOn),
    pieceMore_of_fits fits spelled, Option.bind_some, List.drop_left, List.length_cons]
  simp only [opens]

/-- Behind one piece, a block goes on, or the piece is the brace that closes it. -/
theorem blockLength_step (depth : Nat) (piece : BlockPiece) :
    (∃ next, ∀ behind, piece.Fits behind → blockLength depth (piece.text ++ behind) =
      (blockLength next behind).map (· + piece.text.length)) ∨
    ∀ behind, blockLength depth (piece.text ++ behind) = some piece.text.length := by
  by_cases closing : piece = single '}'
  · subst closing
    cases depth with
    | zero => exact .inr fun behind => blockLength_brace 0 behind
    | succ outer => exact .inl ⟨outer, fun behind _ => blockLength_brace (outer + 1) behind⟩
  · exact .inl ⟨_, fun behind fits => blockLength_fits fits closing depth⟩

/-- Behind some pieces, a block goes on with the braces that they leave open, or it is over. -/
theorem blockLength_behind (depth : Nat) (list : List BlockPiece) :
    (∃ inner, ∀ behind, AllFit behind list → blockLength depth (blockText list ++ behind) =
      (blockLength inner behind).map (· + (blockText list).length)) ∨
    ∃ length ≤ (blockText list).length, ∀ behind, AllFit behind list →
      blockLength depth (blockText list ++ behind) = some length := by
  induction list generalizing depth with
  | nil => exact .inl ⟨depth, fun behind _ => by simp [blockText]⟩
  | cons piece list ih =>
      simp only [blockText_cons, List.length_append, List.append_assoc]
      rcases blockLength_step depth piece with ⟨next, step⟩ | ended
      · rcases ih next with ⟨inner, goesOn⟩ | ⟨length, short, ended⟩
        · refine .inl ⟨inner, fun behind fit => ?_⟩
          rw [step _ fit.1, goesOn behind fit.2, Option.map_map]
          refine congrArg (Option.map · _) (funext fun size => ?_)
          exact (Nat.add_assoc ..).trans (congrArg (size + ·) (Nat.add_comm ..))
        · refine .inr ⟨length + piece.text.length, ?_, fun behind fit => ?_⟩
          · rw [Nat.add_comm]
            exact Nat.add_le_add_left short _
          · rw [step _ fit.1, ended behind fit.2]
            rfl
      · exact .inr ⟨piece.text.length, Nat.le_add_right .., fun behind _ => ended _⟩

theorem mem_of_plain {c : Char} {text : List Char} (plain : .plain c ∈ pieces text) : c ∈ text := by
  rw [← pieces_text text, List.mem_flatMap]
  exact ⟨_, plain, List.mem_singleton_self c⟩

theorem getLast?_of_lone {text : List Char} (lone : .lone ∈ pieces text) :
    text.getLast? = some '\\' := by
  fun_induction pieces text with
  | case1 => cases lone
  | case2 => rfl
  | case3 taken later ih | case4 taken later _ ih =>
      have behind := (List.mem_cons.mp lone).resolve_left Piece.noConfusion
      simp only [List.getLast?_cons, ih behind, Option.getD_some]

/-- A text without quotes and backslashes. -/
def Inert (text : List Char) : Prop := ∀ c ∈ ['\'', '"', '\\'], c ∉ text

/-- A quote gets no partner by what is inserted behind it. -/
theorem unpaired_inserted {quote : Char} (known : quote = '\'' ∨ quote = '"')
    {text comment behind : List Char} (inert : Inert comment) (whole : .lone ∉ pieces text)
    (unpaired : .plain quote ∉ piecesBefore ['\n'] (text ++ behind)) :
    .plain quote ∉ piecesBefore ['\n'] (text ++ (comment ++ behind)) := by
  have notIn : .plain quote ∉ pieces comment := by
    refine fun plain => inert quote ?_ (mem_of_plain plain)
    rcases known with rfl | rfl <;> decide
  have wholeComment : .lone ∉ pieces comment := fun lone =>
    inert '\\' (by decide) (List.mem_of_getLast? (getLast?_of_lone lone))
  unfold piecesBefore at unpaired ⊢
  rw [pieces_append whole, List.takeWhile_append] at unpaired ⊢
  split
  next full =>
    rw [if_pos full, List.mem_append, not_or] at unpaired
    rw [pieces_append wholeComment, List.takeWhile_append, List.mem_append, not_or]
    refine ⟨unpaired.1, ?_⟩
    split
    · rw [List.mem_append, not_or]
      exact ⟨notIn, unpaired.2⟩
    · exact fun inside => notIn (List.takeWhile_sublist _ |>.subset inside)
  next early => rwa [if_neg early] at unpaired

namespace BlockPiece

/-- What is written behind the piece is no part of it. -/
def Ends : BlockPiece → Prop
  | single c => c ≠ '/' ∧ c ≠ '\\'
  | escaped c => c ≠ '\\'
  | lineComment _ => False
  | quoted _ _ | blockComment _ => True

theorem text_ne_nil (piece : BlockPiece) : piece.text ≠ [] := by
  cases piece <;> exact List.cons_ne_nil _ _

theorem Fits.inserted {piece : BlockPiece} {later comment behind : List Char} (inert : Inert comment)
    (fits : piece.Fits (later ++ behind)) (tidy : '\\' ∉ (piece.text ++ later).getLast?)
    (ends : later = [] → piece.Ends) : piece.Fits (later ++ (comment ++ behind)) := by
  have whole : .lone ∉ pieces later := fun lone =>
    tidy (List.mem_getLast?_append_of_mem_getLast? (getLast?_of_lone lone))
  have next (some : later ≠ []) :
      (later ++ (comment ++ behind)).head? = (later ++ behind).head? := by
    rw [List.head?_append_of_ne_nil _ some, List.head?_append_of_ne_nil _ some]
  cases piece with
  | single c =>
      obtain ⟨escape, quote, slash⟩ := fits
      refine ⟨fun isEscape => ?_, fun isQuote => ?_, fun isSlash => ?_⟩
      · obtain ⟨rfl, -⟩ := List.append_eq_nil_iff.mp (escape isEscape)
        exact absurd isEscape (ends rfl).2
      · exact unpaired_inserted isQuote inert whole (quote isQuote)
      · rw [next fun none => (ends none).1 isSlash]
        exact slash isSlash
  | escaped c => trivial
  | quoted quote body => exact fits
  | lineComment body =>
      rw [Fits, next ends]
      exact fits
  | blockComment body => exact fits

end BlockPiece

theorem blockText_eq_nil {list : List BlockPiece} (none : blockText list = []) : list = [] := by
  cases list with
  | nil => rfl
  | cons piece list => exact absurd (List.append_eq_nil_iff.mp none).1 piece.text_ne_nil

/-- Pieces are read in front of an insertion as they are without it. -/
theorem AllFit.inserted {list : List BlockPiece} {middle comment behind : List Char}
    (inert : Inert comment) (fit : AllFit (middle ++ behind) list)
    (tidy : '\\' ∉ (blockText list ++ middle).getLast?)
    (ends : middle = [] → ∀ last ∈ list.getLast?, last.Ends) :
    AllFit (middle ++ (comment ++ behind)) list := by
  induction list with
  | nil => trivial
  | cons piece list ih =>
      obtain ⟨here, later⟩ := fit
      rw [blockText_cons, List.append_assoc] at tidy
      constructor
      · rw [← List.append_assoc] at here ⊢
        refine here.inserted inert tidy fun none => ?_
        obtain ⟨noText, noMiddle⟩ := List.append_eq_nil_iff.mp none
        exact ends noMiddle piece (by rw [blockText_eq_nil noText]; rfl)
      · refine ih later (fun last => tidy (List.mem_getLast?_append_of_mem_getLast? last))
          fun none last isLast => ends none last ?_
        rw [List.getLast?_cons, isLast]
        rfl

/-- A block that is over ends where it did when something is inserted behind it. -/
theorem blockLength_before {run middle comment behind : List Char} (inert : Inert comment)
    (found : blockLength 0 (run ++ (middle ++ behind)) = some run.length)
    (nonempty : middle ≠ []) (tidy : '\\' ∉ middle.getLast?) :
    blockLength 0 (run ++ (middle ++ (comment ++ behind))) = some run.length := by
  obtain ⟨list, rest, ⟨spelled, fit⟩, -, ends⟩ := blockLength_reads 0 (run ++ (middle ++ behind))
  rw [found] at ends
  obtain ⟨taken, -⟩ := ends
  rw [List.take_left] at taken
  subst taken
  obtain rfl := List.append_cancel_left spelled
  have again : AllFit (middle ++ (comment ++ behind)) list := by
    refine fit.inserted inert ?_ fun none => absurd none nonempty
    rwa [List.getLast?_append_of_ne_nil _ nonempty]
  rcases blockLength_behind 0 list with ⟨inner, goesOn⟩ | ⟨length, -, ended⟩
  · rw [goesOn _ fit] at found
    obtain ⟨size, later, same⟩ := Option.map_eq_some_iff.mp found
    have positive := blockLength_pos later
    omega
  · rw [ended _ again, ← found, ended _ fit]

/-- Pieces without braces do not change how a block goes on. -/
theorem blockLength_plain {list : List BlockPiece} {behind : List Char} (fit : AllFit behind list)
    (plain : ∀ piece ∈ list, piece ≠ single '{' ∧ piece ≠ single '}') (depth : Nat) :
    blockLength depth (blockText list ++ behind) =
      (blockLength depth behind).map (· + (blockText list).length) := by
  induction list with
  | nil => simp [blockText]
  | cons piece list ih =>
      obtain ⟨⟨opens, closes⟩, later⟩ := List.forall_mem_cons.mp plain
      rw [blockText_cons, List.append_assoc, blockLength_fits fit.1 closes, if_neg opens,
        ih fit.2 later, Option.map_map, List.length_append]
      refine congrArg (Option.map · _) (funext fun size => ?_)
      exact (Nat.add_assoc ..).trans (congrArg (size + ·) (Nat.add_comm ..))

/-- A block goes on as before behind pieces without braces that are inserted into it. -/
theorem blockLength_inserted {list pieces : List BlockPiece} {behind : List Char} {length : Nat}
    (found : blockLength 0 (blockText list ++ behind) = some length)
    (inside : (blockText list).length < length) (fit : AllFit behind list)
    (inert : Inert (blockText pieces)) (tidy : '\\' ∉ (blockText list).getLast?)
    (ends : ∀ last ∈ list.getLast?, last.Ends) (fitPieces : AllFit behind pieces)
    (plain : ∀ piece ∈ pieces, piece ≠ single '{' ∧ piece ≠ single '}') :
    blockLength 0 (blockText list ++ (blockText pieces ++ behind)) =
      some (length + (blockText pieces).length) := by
  have again : AllFit (blockText pieces ++ behind) list := by
    have inserted : AllFit ([] ++ (blockText pieces ++ behind)) list :=
      AllFit.inserted inert fit (by rwa [List.append_nil]) fun _ => ends
    exact inserted
  rcases blockLength_behind 0 list with ⟨inner, goesOn⟩ | ⟨size, short, ended⟩
  · rw [goesOn _ fit] at found
    obtain ⟨size, later, rfl⟩ := Option.map_eq_some_iff.mp found
    rw [goesOn _ again, blockLength_plain fitPieces plain, later, Option.map_some, Option.map_some]
    exact congrArg some (by omega)
  · rw [ended _ fit] at found
    obtain rfl := Option.some.inj found
    exact absurd inside (Nat.not_lt.mpr short)

end Scan

open Scan

/-- What a comment of letters and spaces holds. -/
def IsWords (words : List Char) : Prop := ∀ c ∈ words, Text.isAlphabetic c = true ∨ c = ' '

instance (words : List Char) : Decidable (IsWords words) :=
  List.decidableBAll _ words

/-- A block comment of letters and spaces, or a line comment with the end of its line.  In a block, a
carriage return ends a line only in front of a line feed. -/
inductive IsComment : List Char → Prop where
  | block {words : List Char} (plain : IsWords words) : IsComment (BlockPiece.blockComment words).text
  | line {words : List Char} (plain : IsWords words) (carriage : List Char)
      (known : carriage = [] ∨ carriage = ['\r']) :
      IsComment ((BlockPiece.lineComment (words ++ carriage)).text ++ ['\n'])

/-- Signs are no letters and no spaces. -/
theorem IsWords.free {words : List Char} (plain : IsWords words) {c : Char}
    (known : c ∈ ['\'', '"', '\\', '*', '/', '\n', ';', ',', '=']) : c ∉ words := by
  have apart : ['\'', '"', '\\', '*', '/', '\n', ';', ',', '='].all
      (fun c => !Text.isAlphabetic c && c != ' ') = true := by decide
  intro member
  have here := List.all_eq_true.mp apart c known
  rcases plain c member with letter | rfl
  · rw [letter] at here
    cases here
  · cases here

namespace IsComment

variable {comment : List Char}

/-- In a block, a comment is read as pieces without braces, whatever follows it. -/
theorem pieces (isComment : IsComment comment) : ∃ list, comment = Scan.blockText list ∧
    (∀ behind, AllFit behind list) ∧
      ∀ piece ∈ list, piece ≠ .single '{' ∧ piece ≠ .single '}' := by
  cases isComment with
  | @block words plain =>
      refine ⟨[.blockComment words], (List.append_nil _).symm, fun behind => ⟨fun ends => ?_, trivial⟩,
        by simp⟩
      have slash := ends.subset (List.mem_cons_of_mem '*' (List.mem_singleton_self '/'))
      rcases List.mem_append.mp slash with inside | last
      · exact plain.free (by decide) inside
      · exact absurd (List.mem_singleton.mp last) (by decide)
  | @line words plain carriage known =>
      have lineFeed (behind : List Char) : (BlockPiece.single '\n').Fits behind :=
        fits_single (by decide) (by decide) (by decide) behind
      refine ⟨[.lineComment (words ++ carriage), .single '\n'], rfl,
        fun behind => ⟨?_, lineFeed behind, trivial⟩, by simp⟩
      refine ⟨fun feed => ?_, fun c next => (Option.some.inj next).symm⟩
      rcases List.mem_append.mp feed with inside | last
      · exact plain.free (by decide) inside
      · rcases known with rfl | rfl <;> exact absurd last (by decide)

/-- A comment holds no quotes, no backslashes and none of the signs between entries. -/
theorem free (isComment : IsComment comment) {c : Char}
    (known : c ∈ ['\'', '"', '\\', ';', ',', '=']) : c ∉ comment := by
  have apart : c ≠ '/' ∧ c ≠ '*' ∧ c ≠ '\n' ∧ c ≠ '\r' ∧
      c ∈ ['\'', '"', '\\', '*', '/', '\n', ';', ',', '='] := by
    simp only [List.mem_cons, List.not_mem_nil, or_false] at known
    rcases known with rfl | rfl | rfl | rfl | rfl | rfl <;> decide
  obtain ⟨slash, star, feed, carriage, listed⟩ := apart
  cases isComment with
  | block plain =>
      simp [BlockPiece.text, BlockPiece.commentEnd, slash, star, plain.free listed]
  | line plain _ known =>
      rcases known with rfl | rfl <;>
        simp [BlockPiece.text, slash, feed, carriage, plain.free listed]

theorem inert (isComment : IsComment comment) : Inert comment := fun _ known =>
  isComment.free (List.mem_append_left [';', ',', '='] known)

end IsComment

end Railroad
