import Railroad.Proofs.Printing.Rescan

/-!
# Scanning encoded blocks

A block can be scanned on the bytes of its text, with jumps over escapes, strings and comments that
are counted in bytes.  All signs that matter are single bytes, and no byte of a longer character
looks like one of them; so a jump that ends inside a character does no harm, the text is never cut
there, and the scan ends behind the same brace as the scan of the characters.
-/

namespace Railroad

namespace Scan

/-- The bytes of a text in UTF-8. -/
def encoded (text : List Char) : List UInt8 := text.flatMap String.utf8EncodeChar

/-- Number of bytes up to and including the quote that closes a string on its line. -/
def quotedBytes (quote : UInt8) : List UInt8 → Option Nat
  | [] => none
  | b :: rest =>
      if b = '\\'.toUInt8 then
        match rest with
        | [] => none
        | _ :: tail => (quotedBytes quote tail).map (· + 2)
      else if b = '\n'.toUInt8 then none
      else if b = quote then some 1
      else (quotedBytes quote rest).map (· + 1)

/-- Number of bytes up to and including the end of a block comment. -/
def closeBytes : List UInt8 → Option Nat
  | [] => none
  | b :: rest =>
      if b = '*'.toUInt8 ∧ rest.head? = some '/'.toUInt8 then some 2
      else (closeBytes rest).map (· + 1)

/-- How the scan of an encoded block ends. -/
inductive BlockEnd where
  /-- The block is closed after so many bytes. -/
  | closed (length : Nat)
  | unclosed
  /-- A brace is closed where none is open. -/
  | unmatched
  /-- The text is cut inside a character. -/
  | cut
  deriving DecidableEq, Repr

/-- Scans the bytes of `text` behind the first `offset` ones, with `depth` braces open.  Comments
are looked for in the text itself, which has to be cut for it. -/
def blockBytes (text : List Char) (depth offset : Nat) : List UInt8 → BlockEnd
  | [] => .unclosed
  | b :: rest =>
      if b = '{'.toUInt8 then blockBytes text (depth + 1) (offset + 1) rest
      else if b = '}'.toUInt8 then
        match depth with
        | 0 => .unmatched
        | 1 => .closed (offset + 1)
        | inner + 2 => blockBytes text (inner + 1) (offset + 1) rest
      else if b = '\\'.toUInt8 then blockBytes text depth (offset + 2) (rest.drop 1)
      else if b = '\''.toUInt8 ∨ b = '"'.toUInt8 then
        match quotedBytes b rest with
        | some length => blockBytes text depth (offset + 1 + length) (rest.drop length)
        | none => blockBytes text depth (offset + 1) rest
      else if b = '/'.toUInt8 ∧ rest.head? = some '/'.toUInt8 then
        match splitBytes offset text with
        | none => .cut
        | some _ =>
            let length := (rest.takeWhile fun d => d != '\n'.toUInt8).length
            blockBytes text depth (offset + 1 + length) (rest.drop length)
      else if b = '/'.toUInt8 ∧ rest.head? = some '*'.toUInt8 then
        match splitBytes (offset + 2) text with
        | none => .cut
        | some _ =>
            match closeBytes (rest.drop 1) with
            | none => .unclosed
            | some length => blockBytes text depth (offset + 2 + length) (rest.drop (1 + length))
      else blockBytes text depth (offset + 1) rest
termination_by bytes => bytes.length
decreasing_by
  all_goals simp only [List.length_cons, List.length_drop]; omega

/-- Scans a text that begins with the opening brace of a block. -/
def blockEnd (text : List Char) : BlockEnd := blockBytes text 0 0 (encoded text)

/-! ## Bytes of characters -/

theorem encoded_cons (c : Char) (rest : List Char) :
    encoded (c :: rest) = String.utf8EncodeChar c ++ encoded rest := List.flatMap_cons

theorem encoded_append (first second : List Char) :
    encoded (first ++ second) = encoded first ++ encoded second := List.flatMap_append

theorem length_encoded (text : List Char) : (encoded text).length = byteLength text := by
  induction text with
  | nil => rfl
  | cons c rest ih =>
      rw [encoded_cons, List.length_append, String.length_utf8EncodeChar, ih, byteLength]

theorem encoded_drop (text : List Char) (count : Nat) :
    (encoded text).drop (byteLength (text.take count)) = encoded (text.drop count) := by
  have split : encoded text = encoded (text.take count) ++ encoded (text.drop count) := by
    rw [← encoded_append, List.take_append_drop]
  rw [split, ← length_encoded, List.drop_left]

/-- A byte of a character of several bytes. -/
def IsHigh (b : UInt8) : Prop := 128 ≤ b.toNat

theorem IsHigh.ne {b : UInt8} (high : IsHigh b) {sign : Char} (ascii : sign.toNat < 128) :
    b ≠ sign.toUInt8 := by
  rintro rfl
  have size : sign.toUInt8.toNat = sign.toNat % 256 := rfl
  rw [IsHigh, size] at high
  omega

/-- The first byte of a character tells whether it is a certain sign, and the others are none. -/
theorem encode_eq (c : Char) : ∃ b more, String.utf8EncodeChar c = b :: more ∧
    (∀ d ∈ more, IsHigh d) ∧ ∀ sign : Char, sign.toNat < 128 → (b = sign.toUInt8 ↔ c = sign) := by
  have high (value : Nat) : IsHigh (UInt8.ofNat (value % 64 + 128)) := by
    rw [IsHigh, UInt8.toNat_ofNat']
    omega
  have apart (value : Nat) (large : 128 ≤ value % 256) (long : 128 ≤ c.toNat) (sign : Char)
      (ascii : sign.toNat < 128) : UInt8.ofNat value = sign.toUInt8 ↔ c = sign := by
    refine iff_of_false (IsHigh.ne ?_ ascii) fun same => ?_
    · rw [IsHigh, UInt8.toNat_ofNat']
      exact large
    · rw [same] at long
      omega
  have size : c.val.toNat = c.toNat := rfl
  unfold String.utf8EncodeChar
  simp only [size]
  split
  next short =>
    refine ⟨_, _, rfl, List.forall_mem_nil _, fun sign ascii => ⟨fun same => ?_, ?_⟩⟩
    · have values := congrArg UInt8.toNat same
      have signValue : sign.toUInt8.toNat = sign.toNat % 256 := rfl
      rw [UInt8.toNat_ofNat', signValue] at values
      exact Char.toNat_inj.mp (by omega)
    · rintro rfl
      rfl
  split
  · refine ⟨_, _, rfl, ?_, apart _ (by omega) (by omega)⟩
    exact List.forall_mem_singleton.mpr (high _)
  split
  · refine ⟨_, _, rfl, ?_, apart _ (by omega) (by omega)⟩
    exact List.forall_mem_cons.mpr ⟨high _, List.forall_mem_singleton.mpr (high _)⟩
  · refine ⟨_, _, rfl, ?_, apart _ (by omega) (by omega)⟩
    exact List.forall_mem_cons.mpr
      ⟨high _, List.forall_mem_cons.mpr ⟨high _, List.forall_mem_singleton.mpr (high _)⟩⟩

theorem encoded_sign {sign : Char} (ascii : sign.toNat < 128) (rest : List Char) :
    encoded (sign :: rest) = sign.toUInt8 :: encoded rest := by
  have short : sign.val.toNat ≤ 127 := Nat.le_of_lt_succ ascii
  rw [encoded_cons, String.utf8EncodeChar]
  simp only [if_pos short]
  rfl

theorem encoded_head? {sign : Char} (ascii : sign.toNat < 128) (text : List Char) :
    (encoded text).head? = some sign.toUInt8 ↔ text.head? = some sign := by
  cases text with
  | nil => exact iff_of_false (fun same => by cases same) fun same => by cases same
  | cons c rest =>
      obtain ⟨b, more, bytes, -, first⟩ := encode_eq c
      rw [encoded_cons, bytes, List.cons_append, List.head?_cons, List.head?_cons, Option.some_inj,
        Option.some_inj, first sign ascii]

theorem toUInt8_inj {c sign : Char} (ascii : c.toNat < 128) (asciiToo : sign.toNat < 128) :
    c.toUInt8 = sign.toUInt8 ↔ c = sign := by
  obtain ⟨b, more, -, -, first⟩ := encode_eq c
  rw [← (first c ascii).mpr rfl, first sign asciiToo]

theorem utf8Size_eq {c : Char} {b : UInt8} {more : List UInt8}
    (bytes : String.utf8EncodeChar c = b :: more) : c.utf8Size = more.length + 1 := by
  rw [← String.length_utf8EncodeChar, bytes, List.length_cons]

theorem byteLength_sign {sign : Char} (ascii : sign.toNat < 128) (rest : List Char) :
    byteLength (sign :: rest) = byteLength rest + 1 := by
  rw [← length_encoded, encoded_sign ascii, List.length_cons, length_encoded]

theorem quotedBytes_high {quote : Char} (ascii : quote.toNat < 128) {more : List UInt8}
    (high : ∀ d ∈ more, IsHigh d) (rest : List UInt8) :
    quotedBytes quote.toUInt8 (more ++ rest) =
      (quotedBytes quote.toUInt8 rest).map (· + more.length) := by
  induction more with
  | nil => exact (Option.map_id' ..).symm
  | cons d later ih =>
      obtain ⟨here, behind⟩ := List.forall_mem_cons.mp high
      have escape : d ≠ '\\'.toUInt8 := here.ne (by decide)
      have barred : d ≠ '\n'.toUInt8 := here.ne (by decide)
      rw [List.cons_append, quotedBytes.eq_def]
      simp only [if_neg escape, if_neg barred, if_neg (here.ne ascii), ih behind, Option.map_map,
        List.length_cons]
      rfl

/-- The bytes that a form takes, if it is closed. -/
def reachedBytes (text : List Char) (found : Reach) : Option Nat :=
  if found.closed then some (byteLength (text.take found.length)) else none

theorem reachedBytes_after (front tail : List Char) (found : Reach) :
    reachedBytes (front ++ tail) (found.after front.length) =
      (reachedBytes tail found).map (· + byteLength front) := by
  obtain ⟨length, closed⟩ := found
  cases closed with
  | false => rfl
  | true =>
      refine congrArg some ?_
      rw [Reach.after, Nat.add_comm length, List.take_length_add_append, byteLength_append,
        Nat.add_comm]

/-- The string that is closed in the bytes is the one that is closed in the text. -/
theorem quotedBytes_encoded {quote : Char} (ascii : quote.toNat < 128) (onLine : quote ≠ '\n')
    (text : List Char) :
    quotedBytes quote.toUInt8 (encoded text) =
      reachedBytes text (reach quote ['\n'] text) := by
  fun_induction reach quote ['\n'] text with
  | case1 => rfl
  | case2 => rfl
  | case3 taken tail ih =>
      obtain ⟨b, more, bytes, high, -⟩ := encode_eq taken
      have size : byteLength ['\\', taken] = more.length + 2 := by
        rw [byteLength_sign (by decide), byteLength, utf8Size_eq bytes]
        rfl
      have moved := reachedBytes_after ['\\', taken] tail (reach quote ['\n'] tail)
      rw [List.cons_append, List.singleton_append, List.length_cons, List.length_singleton] at moved
      rw [moved, size, ← ih, encoded_sign (by decide), encoded_cons, bytes, List.cons_append,
        quotedBytes.eq_def]
      simp only [if_true]
      rw [quotedBytes_high ascii high, Option.map_map]
      rfl
  | case4 rest notEscape =>
      have escape : quote.toUInt8 ≠ '\\'.toUInt8 := fun same =>
        notEscape ((toUInt8_inj ascii (by decide)).mp same)
      have barred : quote.toUInt8 ≠ '\n'.toUInt8 := fun same =>
        onLine ((toUInt8_inj ascii (by decide)).mp same)
      rw [encoded_sign ascii, quotedBytes.eq_def]
      simp only [if_neg escape, if_neg barred, if_true, reachedBytes, List.take_succ_cons,
        List.take_zero, byteLength_sign ascii]
      rfl
  | case5 c rest notEscape notDelimiter isBarred =>
      cases List.mem_singleton.mp isBarred
      rw [encoded_sign (by decide), quotedBytes.eq_def]
      rfl
  | case6 c rest notEscape notDelimiter notBarred ih =>
      obtain ⟨b, more, bytes, high, first⟩ := encode_eq c
      have escape : b ≠ '\\'.toUInt8 := fun same => notEscape ((first '\\' (by decide)).mp same)
      have delimiter : b ≠ quote.toUInt8 := fun same => notDelimiter ((first quote ascii).mp same)
      have barred : b ≠ '\n'.toUInt8 := fun same =>
        notBarred (List.mem_singleton.mpr ((first '\n' (by decide)).mp same))
      have moved := reachedBytes_after [c] rest (reach quote ['\n'] rest)
      rw [List.singleton_append, List.length_singleton] at moved
      rw [moved, ← ih, encoded_cons, bytes, List.cons_append, quotedBytes.eq_def]
      simp only [if_neg escape, if_neg barred, if_neg delimiter]
      rw [quotedBytes_high ascii high, Option.map_map, byteLength, utf8Size_eq bytes]
      rfl

theorem takeWhile_encoded (text : List Char) :
    (encoded text).takeWhile (fun d => d != '\n'.toUInt8) =
      encoded (text.takeWhile fun c => c != '\n') := by
  induction text with
  | nil => rfl
  | cons c rest ih =>
      by_cases ends : c = '\n'
      · subst ends
        rw [encoded_sign (by decide)]
        rfl
      · obtain ⟨b, more, bytes, high, first⟩ := encode_eq c
        have goesOn : ∀ d ∈ String.utf8EncodeChar c, (d != '\n'.toUInt8) = true := by
          rw [bytes, List.forall_mem_cons]
          refine ⟨bne_iff_ne.mpr fun same => ends ((first '\n' (by decide)).mp same), ?_⟩
          exact fun d member => bne_iff_ne.mpr ((high d member).ne (by decide))
        rw [encoded_cons, List.takeWhile_append_of_pos goesOn, ih,
          List.takeWhile_cons, if_pos (bne_iff_ne.mpr ends), encoded_cons]

theorem closeBytes_high {more : List UInt8} (high : ∀ d ∈ more, IsHigh d) (rest : List UInt8) :
    closeBytes (more ++ rest) = (closeBytes rest).map (· + more.length) := by
  induction more with
  | nil => exact (Option.map_id' ..).symm
  | cons d later ih =>
      obtain ⟨here, behind⟩ := List.forall_mem_cons.mp high
      have other : ¬(d = '*'.toUInt8 ∧ (later ++ rest).head? = some '/'.toUInt8) :=
        fun both => here.ne (by decide) both.1
      rw [List.cons_append, closeBytes, if_neg other, ih behind, Option.map_map, List.length_cons]
      rfl

/-- A comment is closed in the bytes where it is closed in the text. -/
theorem closeBytes_encoded (text : List Char) : closeBytes (encoded text) =
    (closeComment text).map fun length => byteLength (text.take length) := by
  fun_induction closeComment text with
  | case1 => rfl
  | case2 tail =>
      rw [encoded_sign (by decide), encoded_sign (by decide), closeBytes, if_pos ⟨rfl, rfl⟩]
      rfl
  | case3 c rest open_ ih =>
      obtain ⟨b, more, bytes, high, first⟩ := encode_eq c
      have goesOn : ¬(b = '*'.toUInt8 ∧ (more ++ encoded rest).head? = some '/'.toUInt8) := by
        rintro ⟨star, slash⟩
        obtain rfl := (first '*' (by decide)).mp star
        cases bytes
        obtain ⟨tail, rfl⟩ := List.head?_eq_some_iff.mp ((encoded_head? (by decide) rest).mp slash)
        exact open_ tail rfl rfl
      rw [encoded_cons, bytes, List.cons_append, closeBytes, if_neg goesOn, closeBytes_high high, ih,
        Option.map_map, Option.map_map, Option.map_map]
      congr 1
      funext length
      simp only [Function.comp_apply, List.take_succ_cons, byteLength, utf8Size_eq bytes]
      omega

/-- What stands at a place in a block: a character, what follows it, and how much of that belongs to
the same piece. -/
inductive PieceAt : Char → List Char → Nat → Prop where
  /-- A backslash that has nothing to take. -/
  | lone : PieceAt '\\' [] 0
  | escaped (taken : Char) (tail : List Char) : PieceAt '\\' (taken :: tail) 1
  | quoted {quote : Char} {rest : List Char} (known : quote = '\'' ∨ quote = '"')
      (closed : (reach quote ['\n'] rest).closed = true) :
      PieceAt quote rest (reach quote ['\n'] rest).length
  /-- A quote that has no partner on its line. -/
  | openQuote {quote : Char} {rest : List Char} (known : quote = '\'' ∨ quote = '"')
      (unclosed : ¬(reach quote ['\n'] rest).closed = true) : PieceAt quote rest 0
  | line (body : List Char) :
      PieceAt '/' ('/' :: body) ((body.takeWhile fun d => d != '\n').length + 1)
  | comment {body : List Char} {length : Nat} (closed : closeComment body = some length) :
      PieceAt '/' ('*' :: body) (length + 1)
  /-- A slash that begins no comment. -/
  | slash {rest : List Char} (line : rest.head? ≠ some '/') (star : rest.head? ≠ some '*') :
      PieceAt '/' rest 0
  | single {c : Char} {rest : List Char} (escape : c ≠ '\\') (quote : ¬(c = '\'' ∨ c = '"'))
      (slash : c ≠ '/') : PieceAt c rest 0

theorem pieceAt_of_pieceMore {c : Char} {rest : List Char} {more : Nat}
    (found : pieceMore c rest = some more) : PieceAt c rest more := by
  unfold pieceMore at found
  split at found
  next escape =>
    cases escape
    cases found
    cases rest with
    | nil => exact .lone
    | cons taken tail =>
        have one : min 1 (taken :: tail).length = 1 := Nat.min_eq_left (Nat.le_add_left ..)
        exact one ▸ .escaped taken tail
  next escape =>
    split at found
    next known =>
      cases found
      split
      next closed => exact .quoted known closed
      next unclosed => exact .openQuote known unclosed
    next quote =>
      split at found
      next slash =>
        cases slash
        split at found
        next =>
          cases found
          exact Nat.add_comm 1 _ ▸ .line _
        next =>
          obtain ⟨length, closed, rfl⟩ := Option.map_eq_some_iff.mp found
          exact Nat.add_comm 1 _ ▸ .comment closed
        next noLine noComment =>
          cases found
          refine .slash (fun begins => ?_) fun begins => ?_
          · obtain ⟨tail, same⟩ := List.head?_eq_some_iff.mp begins
            exact noLine tail same
          · obtain ⟨tail, same⟩ := List.head?_eq_some_iff.mp begins
            exact noComment tail same
      next slash =>
        cases found
        exact .single escape quote slash

theorem pieceMore_eq_none {c : Char} {rest : List Char} (missing : pieceMore c rest = none) :
    ∃ body, c = '/' ∧ rest = '*' :: body ∧ closeComment body = none := by
  unfold pieceMore at missing
  split at missing
  · cases missing
  split at missing
  · cases missing
  split at missing
  next slash =>
    split at missing
    · cases missing
    · exact ⟨_, slash, rfl, Option.map_eq_none_iff.mp missing⟩
    · cases missing
  next => cases missing

section Blocks

variable {text : List Char} {depth offset : Nat}

/-- The bytes that mean something to the scan of a block wherever they stand. -/
def blockSigns : List Char := ['{', '}', '\\', '\'', '"']

theorem ascii_of_blockSign : ∀ sign ∈ blockSigns, sign.toNat < 128 := by
  simp only [blockSigns, List.forall_mem_cons]
  exact ⟨by decide, by decide, by decide, by decide, by decide, List.forall_mem_nil _⟩

theorem blockBytes_other {b : UInt8} {rest : List UInt8}
    (other : ∀ sign ∈ blockSigns, b ≠ sign.toUInt8) (alone : b = '/'.toUInt8 →
      rest.head? ≠ some '/'.toUInt8 ∧ rest.head? ≠ some '*'.toUInt8) :
    blockBytes text depth offset (b :: rest) = blockBytes text depth (offset + 1) rest := by
  simp only [blockSigns, List.forall_mem_cons] at other
  obtain ⟨opening, closing, escape, single, double, -⟩ := other
  have noLine : ¬(b = '/'.toUInt8 ∧ rest.head? = some '/'.toUInt8) := fun both =>
    (alone both.1).1 both.2
  have noComment : ¬(b = '/'.toUInt8 ∧ rest.head? = some '*'.toUInt8) := fun both =>
    (alone both.1).2 both.2
  rw [blockBytes.eq_def]
  simp only [opening, closing, escape, single, double, noLine, noComment, or_self, if_false]

theorem blockBytes_high {more : List UInt8} (high : ∀ d ∈ more, IsHigh d) (rest : List UInt8) :
    blockBytes text depth offset (more ++ rest) =
      blockBytes text depth (offset + more.length) rest := by
  induction more generalizing offset with
  | nil => rfl
  | cons d later ih =>
      obtain ⟨here, behind⟩ := List.forall_mem_cons.mp high
      have other : ∀ sign ∈ blockSigns, d ≠ sign.toUInt8 := fun sign listed =>
        here.ne (ascii_of_blockSign sign listed)
      rw [List.cons_append, blockBytes_other other fun same => absurd same (here.ne (by decide)),
        ih behind, List.length_cons, Nat.add_assoc, Nat.add_comm 1]

theorem blockBytes_open (rest : List UInt8) : blockBytes text depth offset ('{'.toUInt8 :: rest) =
    blockBytes text (depth + 1) (offset + 1) rest := by
  rw [blockBytes.eq_def]
  rfl

theorem blockBytes_close (rest : List UInt8) : blockBytes text depth offset ('}'.toUInt8 :: rest) =
    match depth with
    | 0 => .unmatched
    | 1 => .closed (offset + 1)
    | inner + 2 => blockBytes text (inner + 1) (offset + 1) rest := by
  rw [blockBytes.eq_def]
  rfl

theorem blockBytes_escape (rest : List UInt8) :
    blockBytes text depth offset ('\\'.toUInt8 :: rest) =
      blockBytes text depth (offset + 2) (rest.drop 1) := by
  rw [blockBytes.eq_def]
  rfl

theorem blockBytes_quote {quote : Char} (known : quote = '\'' ∨ quote = '"') (rest : List UInt8) :
    blockBytes text depth offset (quote.toUInt8 :: rest) =
      match quotedBytes quote.toUInt8 rest with
      | some length => blockBytes text depth (offset + 1 + length) (rest.drop length)
      | none => blockBytes text depth (offset + 1) rest := by
  rw [blockBytes.eq_def]
  rcases known with rfl | rfl <;> rfl

theorem blockBytes_line {halves : List Char × List Char}
    (cut : splitBytes offset text = some halves) (rest : List UInt8) :
    blockBytes text depth offset ('/'.toUInt8 :: '/'.toUInt8 :: rest) =
      blockBytes text depth
        (offset + 2 + (rest.takeWhile fun d => d != '\n'.toUInt8).length)
        (rest.drop (rest.takeWhile fun d => d != '\n'.toUInt8).length) := by
  have passed : (('/'.toUInt8 :: rest).takeWhile fun d => d != '\n'.toUInt8) =
      '/'.toUInt8 :: rest.takeWhile fun d => d != '\n'.toUInt8 := rfl
  rw [blockBytes.eq_def]
  dsimp only
  rw [if_neg (by decide), if_neg (by decide), if_neg (by decide), if_neg (by decide),
    if_pos ⟨rfl, rfl⟩, cut, passed, List.length_cons, List.drop_succ_cons]
  exact congrArg (blockBytes text depth · _) (by omega)

theorem blockBytes_comment {halves : List Char × List Char}
    (cut : splitBytes (offset + 2) text = some halves) (rest : List UInt8) :
    blockBytes text depth offset ('/'.toUInt8 :: '*'.toUInt8 :: rest) =
      match closeBytes rest with
      | none => .unclosed
      | some length => blockBytes text depth (offset + 2 + length) (rest.drop length) := by
  rw [blockBytes.eq_def]
  dsimp only
  rw [if_neg (by decide), if_neg (by decide), if_neg (by decide), if_neg (by decide),
    if_neg fun both => absurd (Option.some.inj both.2) (by decide), if_pos ⟨rfl, rfl⟩, cut,
    List.drop_succ_cons, List.drop_zero]
  cases closeBytes rest with
  | none => rfl
  | some length => simp only [Nat.add_comm 1 length, List.drop_succ_cons]

variable {front rest : List Char} {more : Nat}

theorem splitBytes_comment (split : text = front ++ '/' :: '*' :: rest) :
    splitBytes (byteLength front + 2) text = some (front ++ ['/', '*'], rest) := by
  have size : byteLength front + 2 = byteLength (front ++ ['/', '*']) := by
    rw [byteLength_append]
    rfl
  have whole : front ++ '/' :: '*' :: rest = front ++ ['/', '*'] ++ rest := by
    rw [List.append_assoc]
    rfl
  rw [split, size, whole, splitBytes_byteLength]

/-- An ordinary character is passed over with all its bytes. -/
theorem blockBytes_single {c : Char} (escape : c ≠ '\\') (quote : ¬(c = '\'' ∨ c = '"'))
    (slash : c ≠ '/') (opening : c ≠ '{') (closing : c ≠ '}') (rest : List Char) :
    blockBytes text depth offset (encoded (c :: rest)) =
      blockBytes text depth (offset + c.utf8Size) (encoded rest) := by
  obtain ⟨b, bytes, spelled, high, first⟩ := encode_eq c
  have other : ∀ sign ∈ blockSigns, b ≠ sign.toUInt8 := by
    intro sign listed same
    obtain rfl := (first sign (ascii_of_blockSign sign listed)).mp same
    simp only [blockSigns, List.mem_cons, List.not_mem_nil, or_false] at listed
    rcases listed with listed | listed | listed | listed
    · exact opening listed
    · exact closing listed
    · exact escape listed
    · exact quote listed
  rw [encoded_cons, spelled, List.cons_append, blockBytes_other other fun same =>
    absurd ((first '/' (by decide)).mp same) slash, blockBytes_high high, utf8Size_eq spelled]
  exact congrArg (blockBytes text depth · _) (by omega)

theorem blockBytes_escaped (taken : Char) (rest : List Char) :
    blockBytes text depth offset (encoded ('\\' :: taken :: rest)) =
      blockBytes text depth (offset + 1 + taken.utf8Size) (encoded rest) := by
  obtain ⟨b, bytes, spelled, high, -⟩ := encode_eq taken
  rw [encoded_sign (by decide), encoded_cons, spelled, List.cons_append, blockBytes_escape,
    List.drop_succ_cons, List.drop_zero, blockBytes_high high, utf8Size_eq spelled]
  exact congrArg (blockBytes text depth · _) (by omega)

theorem sign_of_quote {quote : Char} (known : quote = '\'' ∨ quote = '"') :
    quote.toNat < 128 ∧ quote ≠ '\n' ∧ quote ≠ '{' := by
  rcases known with rfl | rfl <;> decide

theorem blockBytes_string {quote : Char} (known : quote = '\'' ∨ quote = '"') (rest : List Char) :
    blockBytes text depth offset (encoded (quote :: rest)) =
      match reachedBytes rest (reach quote ['\n'] rest) with
      | some length => blockBytes text depth (offset + 1 + length) ((encoded rest).drop length)
      | none => blockBytes text depth (offset + 1) (encoded rest) := by
  obtain ⟨ascii, onLine, -⟩ := sign_of_quote known
  rw [encoded_sign ascii, blockBytes_quote known, quotedBytes_encoded ascii onLine]

theorem blockBytes_slash {rest : List Char} (line : rest.head? ≠ some '/')
    (star : rest.head? ≠ some '*') :
    blockBytes text depth offset (encoded ('/' :: rest)) =
      blockBytes text depth (offset + 1) (encoded rest) := by
  have other : ∀ sign ∈ blockSigns, '/'.toUInt8 ≠ sign.toUInt8 := by
    intro sign listed same
    cases (toUInt8_inj (by decide) (ascii_of_blockSign sign listed)).mp same
    exact absurd listed (by decide)
  rw [encoded_sign (by decide), blockBytes_other other]
  exact fun _ => ⟨mt (encoded_head? (by decide) rest).mp line,
    mt (encoded_head? (by decide) rest).mp star⟩

/-- One piece of a block is passed over with all its bytes. -/
theorem blockBytes_piece {c : Char} (split : text = front ++ c :: rest) (goesOn : c ≠ '}')
    (piece : PieceAt c rest more) :
    blockBytes text depth (byteLength front) (encoded (c :: rest)) =
      blockBytes text (if c = '{' then depth + 1 else depth)
        (byteLength front + byteLength (c :: rest.take more)) (encoded (rest.drop more)) := by
  cases piece with
  | lone =>
      have none : encoded [] = [] := rfl
      rw [encoded_sign (by decide), blockBytes_escape, List.drop_nil, none, List.drop_nil,
        blockBytes, blockBytes]
  | escaped taken tail =>
      rw [blockBytes_escaped, if_neg (by decide), Nat.add_assoc]
      rfl
  | quoted known closed =>
      obtain ⟨ascii, -, brace⟩ := sign_of_quote known
      rw [blockBytes_string known, reachedBytes, if_neg brace, byteLength_sign ascii]
      simp only [if_pos closed, encoded_drop]
      exact congrArg (blockBytes text depth · _) (by omega)
  | openQuote known unclosed =>
      obtain ⟨ascii, -, brace⟩ := sign_of_quote known
      rw [blockBytes_string known, reachedBytes, if_neg brace, byteLength_sign ascii]
      simp only [if_neg unclosed]
      rfl
  | line body =>
      have cut : splitBytes (byteLength front) text = some (front, '/' :: '/' :: body) := by
        rw [split, splitBytes_byteLength]
      have taken : body.take (body.takeWhile fun d => d != '\n').length =
          body.takeWhile fun d => d != '\n' :=
        (List.prefix_iff_eq_take.mp (List.takeWhile_prefix _)).symm
      have ends := encoded_drop body (body.takeWhile fun d => d != '\n').length
      rw [taken] at ends
      rw [encoded_sign (by decide), encoded_sign (by decide), blockBytes_line cut, takeWhile_encoded,
        length_encoded, ends, List.take_succ_cons, List.drop_succ_cons, byteLength_sign (by decide),
        byteLength_sign (by decide), taken]
      exact congrArg (blockBytes text depth · _) (by omega)
  | comment closed =>
      rw [encoded_sign (by decide), encoded_sign (by decide),
        blockBytes_comment (splitBytes_comment split), closeBytes_encoded, closed, Option.map_some]
      simp only [encoded_drop]
      rw [List.take_succ_cons, List.drop_succ_cons, byteLength_sign (by decide),
        byteLength_sign (by decide)]
      exact congrArg (blockBytes text depth · _) (by omega)
  | slash line star => exact blockBytes_slash line star
  | single escape quote slash =>
      by_cases opening : c = '{'
      · subst opening
        rw [encoded_sign (by decide), blockBytes_open, if_pos rfl]
        rfl
      · rw [blockBytes_single escape quote slash opening goesOn, if_neg opening]
        rfl

/-- Inside a block, the scan of the bytes ends where the scan of the characters does. -/
theorem blockBytes_encoded (split : text = front ++ rest) :
    blockBytes text (depth + 1) (byteLength front) (encoded rest) =
      match blockLength depth rest with
      | some length => .closed (byteLength front + byteLength (rest.take length))
      | none => .unclosed := by
  fun_induction blockLength depth rest generalizing front with
  | case1 depth =>
      have none : encoded [] = [] := rfl
      rw [none, blockBytes]
  | case2 rest =>
      rw [encoded_sign (by decide), blockBytes_close]
      rfl
  | case3 rest outer ih =>
      rw [List.append_cons] at split
      rw [encoded_sign (by decide), blockBytes_close]
      have size : byteLength (front ++ ['}']) = byteLength front + 1 := byteLength_append ..
      have later := ih split
      rw [size] at later
      dsimp only
      rw [later]
      cases blockLength outer rest with
      | none => rfl
      | some length =>
          have one : byteLength ('}' :: rest.take length) = byteLength (rest.take length) + 1 :=
            byteLength_sign (by decide) _
          simp only [Option.map_some, List.take_succ_cons, one]
          congr 1
          omega
  | case4 depth c rest notClosing missing =>
      obtain ⟨body, rfl, rfl, unclosed⟩ := pieceMore_eq_none missing
      rw [encoded_sign (by decide), encoded_sign (by decide),
        blockBytes_comment (splitBytes_comment split), closeBytes_encoded, unclosed]
      rfl
  | case5 depth c rest notClosing more piece ih =>
      have moved : text = (front ++ c :: rest.take more) ++ rest.drop more := by
        rw [List.append_assoc, List.cons_append, List.take_append_drop, split]
      have deeper : (if c = '{' then depth + 1 + 1 else depth + 1) =
          (if c = '{' then depth + 1 else depth) + 1 := by
        split <;> rfl
      have later := ih moved
      simp only [dite_eq_ite] at later
      rw [blockBytes_piece split notClosing (pieceAt_of_pieceMore piece), deeper, ← byteLength_append, later]
      cases blockLength (if c = '{' then depth + 1 else depth) (rest.drop more) with
      | none => rfl
      | some length =>
          have taken : (c :: rest).take (length + (more + 1)) =
              c :: rest.take more ++ (rest.drop more).take length := by
            rw [← Nat.add_assoc, Nat.add_comm length, List.take_succ_cons, List.take_add,
              List.cons_append]
          simp only [Option.map_some, taken, byteLength_append, Nat.add_assoc]

/-- The scan of the bytes of a block ends where the scan of its characters does. -/
theorem blockEnd_brace (rest : List Char) : blockEnd ('{' :: rest) =
    match blockLength 0 rest with
    | some length => .closed (byteLength ('{' :: rest.take length))
    | none => .unclosed := by
  have inner : blockBytes ('{' :: rest) 1 1 (encoded rest) = _ :=
    blockBytes_encoded (@List.singleton_append _ '{' rest).symm
  rw [blockEnd, encoded_sign (by decide), blockBytes_open, inner]
  cases blockLength 0 rest with
  | none => rfl
  | some length => rfl

end Blocks

end Scan

end Railroad
