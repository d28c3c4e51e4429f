import Railroad.Proofs.Token.Encoded
import Railroad.Proofs.Token.Lines

/-!
# Balanced blocks

A block is read piece by piece, where braces count only if they are pieces of their own.  Its last
brace is the first one at which as many braces are closed as have been opened; a block that is not
closed has more open braces all along, up to the end or up to a comment that does not end.
-/

namespace Railroad

open Label

namespace Scan

/-- A part of a block that is read as a whole. -/
inductive BlockPiece where
  | single (c : Char)
  /-- A backslash with the character that it takes. -/
  | escaped (c : Char)
  /-- A string on one line, without its quotes. -/
  | quoted (quote : Char) (body : List Char)
  | lineComment (body : List Char)
  | blockComment (body : List Char)
  deriving DecidableEq, Repr

namespace BlockPiece

def commentEnd : List Char := ['*', '/']

def text : BlockPiece → List Char
  | single c => [c]
  | escaped c => ['\\', c]
  | quoted quote body => quote :: (body ++ [quote])
  | lineComment body => '/' :: '/' :: body
  | blockComment body => '/' :: '*' :: (body ++ commentEnd)

/-- What is read first in front of `behind`.  Backslashes, quotes and slashes are read as single
characters only where they begin nothing longer, and what is longer ends at the first chance. -/
def Fits (behind : List Char) : BlockPiece → Prop
  | single c => (c = '\\' → behind = []) ∧
      (c = '\'' ∨ c = '"' → .plain c ∉ piecesBefore ['\n'] behind) ∧
      (c = '/' → behind.head? ≠ some '/' ∧ behind.head? ≠ some '*')
  | escaped _ => True
  | quoted quote body => (quote = '\'' ∨ quote = '"') ∧
      ∀ piece ∈ [.plain quote, .plain '\n', .lone], piece ∉ pieces body
  | lineComment body => '\n' ∉ body ∧ ∀ c ∈ behind.head?, c = '\n'
  | blockComment body => ¬commentEnd <:+: body ++ ['*']

end BlockPiece

open BlockPiece

def blockText (list : List BlockPiece) : List Char := list.flatMap text

/-- All pieces are read first where they stand. -/
def AllFit (behind : List Char) : List BlockPiece → Prop
  | [] => True
  | piece :: rest => piece.Fits (blockText rest ++ behind) ∧ AllFit behind rest

/-- A text is read as some pieces, and the rest is left. -/
structure ReadsAs (whole : List Char) (list : List BlockPiece) (behind : List Char) : Prop where
  spelled : whole = blockText list ++ behind
  fit : AllFit behind list

theorem ReadsAs.nil (text : List Char) : ReadsAs text [] text := ⟨rfl, trivial⟩

theorem ReadsAs.cons {piece : BlockPiece} {rest behind : List Char} {list : List BlockPiece}
    (fits : piece.Fits rest) (later : ReadsAs rest list behind) :
    ReadsAs (piece.text ++ rest) (piece :: list) behind := by
  obtain ⟨rfl, fit⟩ := later
  exact ⟨(List.append_assoc ..).symm, fits, fit⟩

theorem commentEnd_infix_cons (c : Char) (rest : List Char) :
    commentEnd <:+: c :: rest ↔ (c = '*' ∧ rest.head? = some '/') ∨ commentEnd <:+: rest := by
  rw [List.infix_cons_iff]
  refine or_congr_left ?_
  rw [commentEnd, List.cons_prefix_cons, eq_comm (a := '*')]
  refine and_congr_right fun _ => ?_
  cases rest with
  | nil => simp
  | cons d later => simp [List.cons_prefix_cons, eq_comm]

/-- A comment ends at the first chance. -/
theorem closeComment_first {text : List Char} {length : Nat}
    (closed : closeComment text = some length) :
    ∃ body, text.take length = body ++ commentEnd ∧ ¬commentEnd <:+: body ++ ['*'] := by
  fun_induction closeComment text generalizing length with
  | case1 => cases closed
  | case2 tail =>
      cases closed
      exact ⟨[], rfl, by decide⟩
  | case3 c rest goesOn ih =>
      obtain ⟨inner, found, rfl⟩ := Option.map_eq_some_iff.mp closed
      obtain ⟨body, taken, first⟩ := ih found
      refine ⟨c :: body, by rw [List.take_succ_cons, taken, List.cons_append], ?_⟩
      rw [List.cons_append, commentEnd_infix_cons]
      rintro (⟨star, slash⟩ | later)
      · cases body with
        | nil => cases slash
        | cons d others =>
            obtain rfl := Option.some.inj slash
            have whole := List.take_append_drop inner rest
            rw [taken] at whole
            exact goesOn _ star whole.symm
      · exact first later

theorem not_infix_of_closeComment {text : List Char} (missing : closeComment text = none) :
    ¬commentEnd <:+: text := by
  fun_induction closeComment text with
  | case1 => decide
  | case2 => cases missing
  | case3 c rest goesOn ih =>
      rw [commentEnd_infix_cons]
      rintro (⟨star, slash⟩ | later)
      · obtain ⟨tail, same⟩ := List.head?_eq_some_iff.mp slash
        exact goesOn tail star same
      · exact ih (Option.map_eq_none_iff.mp missing) later

theorem head_behind_takeWhile (meets : Char → Bool) (text : List Char) :
    ∀ c ∈ (text.drop (text.takeWhile meets).length).head?, meets c = false := by
  induction text with
  | nil => exact nofun
  | cons d rest ih =>
      rw [List.takeWhile_cons]
      split
      next => rwa [List.length_cons, List.drop_succ_cons]
      next stops =>
        rintro c ⟨⟩
        exact Bool.eq_false_iff.mpr stops

theorem fits_single {c : Char} (escape : c ≠ '\\') (quote : ¬(c = '\'' ∨ c = '"')) (slash : c ≠ '/')
    (behind : List Char) : (single c).Fits behind :=
  ⟨fun same => absurd same escape, fun same => absurd same quote, fun same => absurd same slash⟩

/-- A string that is closed on its line is read without bare quotes and line feeds. -/
theorem quoted_of_reach {quote : Char} (known : quote = '\'' ∨ quote = '"') {rest : List Char}
    (closed : (reach quote ['\n'] rest).closed = true) : ∃ body,
      rest.take (reach quote ['\n'] rest).length = body ++ [quote] ∧
      (quoted quote body).Fits (rest.drop (reach quote ['\n'] rest).length) := by
  have free : quote ∉ ['\n'] := by rcases known with rfl | rfl <;> decide
  have shape := shape_of_reach (Reach.eq_of_closed closed)
  obtain ⟨body, taken, apart, whole⟩ := inner_of_reach shape
  rw [taken] at shape
  have bare := not_isBare_of_reach free shape
  rw [pieces_append whole] at bare
  refine ⟨body, taken, known, ?_⟩
  simp only [List.forall_mem_cons]
  refine ⟨apart, fun feed => ?_, whole, List.forall_mem_nil _⟩
  exact absurd (bare _ (List.mem_append_left _ feed)) (by decide)

/-- What belongs together in a block is a piece that is read there. -/
theorem piece_of_pieceAt {c : Char} {rest : List Char} {more : Nat} (stands : PieceAt c rest more) :
    ∃ piece : BlockPiece, piece.text = c :: rest.take more ∧ piece.Fits (rest.drop more) ∧
      (piece = single '{' ↔ c = '{') ∧ (piece = single '}' ↔ c = '}') := by
  cases stands with
  | lone => exact ⟨single '\\', rfl, ⟨fun _ => rfl, by decide, by decide⟩, by decide⟩
  | escaped taken tail => exact ⟨.escaped taken, rfl, trivial, by simp⟩
  | quoted known closed =>
      obtain ⟨body, taken, fits⟩ := quoted_of_reach known closed
      have apart : c ≠ '{' ∧ c ≠ '}' := by rcases known with rfl | rfl <;> decide
      exact ⟨.quoted c body, by rw [taken]; rfl, fits, by simp [apart]⟩
  | openQuote known unclosed =>
      have free : c ∉ ['\n'] := by rcases known with rfl | rfl <;> decide
      refine ⟨single c, rfl, ⟨?_, fun _ => ?_, ?_⟩, by simp⟩
      · rintro rfl
        exact absurd known (by decide)
      · exact fun partner => unclosed ((reach_closed_iff free rest).mpr partner)
      · rintro rfl
        exact absurd known (by decide)
  | line body =>
      refine ⟨lineComment (body.takeWhile fun d => d != '\n'), ?_, ⟨fun feed => ?_, ?_⟩, by simp⟩
      · rw [List.take_succ_cons, ← List.prefix_iff_eq_take.mp (List.takeWhile_prefix _)]
        rfl
      · exact absurd (List.all_eq_true.mp List.all_takeWhile _ feed) (by decide)
      · rw [List.drop_succ_cons]
        intro c next
        exact bne_eq_false_iff_eq.mp (head_behind_takeWhile _ body c next)
  | comment closed =>
      obtain ⟨inner, taken, first⟩ := closeComment_first closed
      exact ⟨blockComment inner, by rw [List.take_succ_cons, taken]; rfl, first, by simp⟩
  | slash line star =>
      exact ⟨single '/', rfl, ⟨by simp, by simp, fun _ => ⟨line, star⟩⟩, by simp⟩
  | single escape quote slash =>
      exact ⟨.single c, rfl, fits_single escape quote slash _, by simp⟩

/-- With `depth` braces open before some pieces, a brace is open in front of each of them. -/
def StaysOpen (depth : Nat) (list : List BlockPiece) : Prop :=
  ∀ front, front <+: list → front ≠ list →
    front.count (single '}') < depth + front.count (single '{')

/-- With `depth` braces open, a block is read up to the brace that closes the last of them, or up
to where it is left open. -/
def ReadsBlock (depth : Nat) (text : List Char) (found : Option Nat) : Prop :=
  ∃ list behind, ReadsAs text list behind ∧ StaysOpen depth list ∧
    match found with
    | some length => text.take length = blockText list ∧
        list.count (single '}') = depth + list.count (single '{')
    | none => list.count (single '}') < depth + list.count (single '{') ∧
        (behind = [] ∨ ∃ body, behind = '/' :: '*' :: body ∧ ¬commentEnd <:+: body)

section Steps

variable {depth after : Nat} {piece : BlockPiece} {list : List BlockPiece}

theorem count_first (brace piece : BlockPiece) (list : List BlockPiece) :
    (piece :: list).count brace = [piece].count brace + list.count brace :=
  @List.count_append _ _ brace [piece] list

theorem StaysOpen.nil (depth : Nat) : StaysOpen depth [] :=
  fun _ before proper => absurd (List.prefix_nil.mp before) proper

theorem StaysOpen.cons (later : StaysOpen after list)
    (change : after + [piece].count (single '}') = depth + 1 + [piece].count (single '{')) :
    StaysOpen (depth + 1) (piece :: list) := by
  intro front before proper
  rcases List.prefix_cons_iff.mp before with rfl | ⟨others, rfl, within⟩
  · exact Nat.succ_pos _
  · have open_ := later others within fun same => proper (congrArg _ same)
    rw [count_first, count_first (single '{')]
    omega

theorem ReadsBlock.cons {text rest : List Char} {size : Nat} {found : Option Nat}
    (later : ReadsBlock after rest found) (fits : piece.Fits rest) (whole : text = piece.text ++ rest)
    (change : after + [piece].count (single '}') = depth + 1 + [piece].count (single '{'))
    (taken : ∀ length, text.take (length + size) = piece.text ++ rest.take length) :
    ReadsBlock (depth + 1) text (found.map (· + size)) := by
  obtain ⟨list, behind, reads, open_, ends⟩ := later
  refine ⟨piece :: list, behind, whole ▸ reads.cons fits, open_.cons change, ?_⟩
  cases found with
  | none =>
      obtain ⟨counts, left⟩ := ends
      refine ⟨?_, left⟩
      rw [count_first, count_first (single '{')]
      omega
  | some length =>
      obtain ⟨spelled, counts⟩ := ends
      refine ⟨by rw [taken, spelled]; rfl, ?_⟩
      rw [count_first, count_first (single '{')]
      omega

end Steps

/-- Besides `depth` inner braces, the brace of the block itself is open. -/
theorem blockLength_reads (depth : Nat) (text : List Char) :
    ReadsBlock (depth + 1) text (blockLength depth text) := by
  have closing (rest : List Char) : (single '}').Fits rest :=
    fits_single (by decide) (by decide) (by decide) rest
  fun_induction blockLength depth text with
  | case1 depth => exact ⟨[], [], .nil _, .nil _, Nat.succ_pos _, .inl rfl⟩
  | case2 rest =>
      have done : ReadsBlock 0 rest (some 0) := ⟨[], rest, .nil _, .nil _, rfl, rfl⟩
      exact done.cons (closing rest) rfl rfl fun length => List.take_succ_cons
  | case3 rest outer ih =>
      exact ih.cons (closing rest) rfl (by rfl) fun length => List.take_succ_cons
  | case4 depth c rest notClosing missing =>
      obtain ⟨body, rfl, rfl, unclosed⟩ := pieceMore_eq_none missing
      have left := not_infix_of_closeComment unclosed
      exact ⟨[], _, .nil _, .nil _, Nat.succ_pos _, .inr ⟨body, rfl, left⟩⟩
  | case5 depth c rest notClosing more found ih =>
      obtain ⟨piece, spelled, fits, opening, closes⟩ :=
        piece_of_pieceAt (pieceAt_of_pieceMore found)
      have goesOn : piece ≠ single '}' := mt closes.mp notClosing
      refine ih.cons fits ?_ ?_ fun length => ?_
      · rw [spelled, List.cons_append, List.take_append_drop]
      · rw [List.count_singleton, List.count_singleton]
        simp only [beq_iff_eq, goesOn, opening, if_false, dite_eq_ite]
        split <;> rfl
      · rw [spelled, ← Nat.add_assoc, Nat.add_comm length, List.take_succ_cons, List.take_add,
          List.cons_append]

/--
The block at the beginning of a text is read piece by piece, where braces in strings, in comments
and behind backslashes do not count.  It ends with the first brace up to which as many braces are
closed as are opened.  If there is none, the text ends or a comment is left open while a brace is
still open.  On the bytes of the text, the scan ends at the same place; it never closes a brace
where none is open and never cuts a character.
-/
theorem block_balanced (rest : List Char) :
    match blockLength 0 rest with
    | some length => blockEnd ('{' :: rest) = .closed (byteLength ('{' :: rest.take length)) ∧
        ∃ list behind, ReadsAs ('{' :: rest) list behind ∧
          '{' :: rest.take length = blockText list ∧
          (∀ front, front <+: list → front ≠ [] → front ≠ list →
            front.count (single '}') < front.count (single '{')) ∧
          list.count (single '}') = list.count (single '{')
    | none => blockEnd ('{' :: rest) = .unclosed ∧
        ∃ list behind, ReadsAs ('{' :: rest) list behind ∧ list ≠ [] ∧
          (∀ front, front <+: list → front ≠ [] →
            front.count (single '}') < front.count (single '{')) ∧
          (behind = [] ∨ ∃ body, behind = '/' :: '*' :: body ∧ ¬commentEnd <:+: body) := by
  have ends := blockEnd_brace rest
  obtain ⟨list, behind, reads, open_, found⟩ := blockLength_reads 0 rest
  have fits : (single '{').Fits rest := fits_single (by decide) (by decide) (by decide) rest
  have proper : ∀ front, front <+: single '{' :: list → front ≠ [] → front ≠ single '{' :: list →
      front.count (single '}') < front.count (single '{') := by
    intro front before some other
    obtain ⟨others, rfl, within⟩ := (List.prefix_cons_iff.mp before).resolve_left some
    have inner := open_ others within fun same => other (congrArg _ same)
    rw [List.count_cons_self, List.count_cons_of_ne (by decide)]
    omega
  cases scanned : blockLength 0 rest with
  | some length =>
      rw [scanned] at ends found
      obtain ⟨spelled, counts⟩ := found
      refine ⟨ends, _, behind, reads.cons fits, congrArg _ spelled, proper, ?_⟩
      rw [List.count_cons_self, List.count_cons_of_ne (by decide)]
      omega
  | none =>
      rw [scanned] at ends found
      obtain ⟨counts, left⟩ := found
      refine ⟨ends, _, behind, reads.cons fits, List.cons_ne_nil _ _, fun front before some => ?_, left⟩
      by_cases whole : front = single '{' :: list
      · rw [whole, List.count_cons_self, List.count_cons_of_ne (by decide)]
        omega
      · exact proper front before some whole

example : blockEnd "\x7b'\x7d'é\\\x7d//\x7d\n/*\x7d*/'\x7dé".toList = .closed 19 := by cbv

end Scan

end Railroad
