import Railroad.Proofs.Printing.Rescan
import Railroad.Proofs.Token.Slices

/-!
# Tokens that stand in a text

Whether the tokens of a text are scanned again is decided by its actions: each of them has to stand
in front of what is written behind it.  This is checked by walking through the text, token by
token, and is not only enough but needed: where an action does not stand, a scan finds something
else or nothing.
-/

namespace Railroad

open Scan

/-- The tokens stand in the text, each behind the one before it. -/
def Standing : List Token → List Char → Prop
  | [], _ => True
  | token :: rest, text =>
      token.StandsBefore ((text.dropWhile Text.isBlank).drop token.text.toList.length) ∧
        Standing rest ((text.dropWhile Text.isBlank).drop token.text.toList.length)

instance standingDecidable : ∀ (tokens : List Token) (text : List Char),
    Decidable (Standing tokens text)
  | [], _ => isTrue trivial
  | token :: rest, text =>
      have := standingDecidable rest ((text.dropWhile Text.isBlank).drop token.text.toList.length)
      inferInstanceAs (Decidable (_ ∧ _))

theorem standing_blank {c : Char} (blank : Text.isBlank c = true) {tokens : List Token}
    {text : List Char} : Standing tokens (c :: text) ↔ Standing tokens text := by
  cases tokens with
  | nil => rfl
  | cons token rest => rw [Standing, Standing, List.dropWhile_cons_of_pos blank]

/-- The text of a token begins with something to be seen. -/
theorem Token.Shaped.visible {token : Token} (shaped : token.Shaped)
    (kept : token.isTrivia = false) :
    ∃ c run, token.text.toList = c :: run ∧ Text.isBlank c = false := by
  cases token with
  | action text =>
      obtain ⟨body, -, spelled, -⟩ := shaped
      exact ⟨'{', body, spelled, by decide⟩
  | _ =>
      obtain ⟨c, run, spelled⟩ := shaped.exists_cons kept
      have scanned := scan_shaped shaped kept spelled (.of_loose .nil _) nofun
      exact ⟨c, run, spelled, not_blank_of_scan scanned kept⟩

theorem standing_token {token : Token} (shaped : token.Shaped) (kept : token.isTrivia = false)
    {tokens : List Token} {text : List Char} :
    Standing (token :: tokens) (token.text.toList ++ text) ↔
      token.StandsBefore text ∧ Standing tokens text := by
  obtain ⟨c, run, spelled, visible⟩ := shaped.visible kept
  have start : (token.text.toList ++ text).dropWhile Text.isBlank = token.text.toList ++ text := by
    rw [spelled, List.cons_append, List.dropWhile_cons_of_neg (by rw [visible]; decide)]
  rw [Standing, start, List.drop_left]

/-- The text consists of the tokens and of spaces and line feeds. -/
inductive Written : List Token → List Char → Prop where
  | nil : Written [] []
  | space {tokens : List Token} {text : List Char} (later : Written tokens text) :
      Written tokens (' ' :: text)
  | lineFeed {tokens : List Token} {text : List Char} (later : Written tokens text) :
      Written tokens ('\n' :: text)
  | token {token : Token} {tokens : List Token} {text : List Char} (shaped : token.Shaped)
      (kept : token.isTrivia = false) (ends : token.EndsBefore text)
      (later : Written tokens text) : Written (token :: tokens) (token.text.toList ++ text)

theorem Laid.written {tail text : List Char} {tokens others : List Token}
    (laid : Laid tail tokens text)
    (known : ∀ token ∈ tokens, token.Shaped ∧ token.isTrivia = false)
    (later : Written others tail) : Written (tokens ++ others) (text ++ tail) := by
  induction laid with
  | nil => exact later
  | blank _ ih => exact .space (ih known)
  | token ends _ ih =>
      obtain ⟨⟨shaped, kept⟩, knownRest⟩ := List.forall_mem_cons.mp known
      rw [List.append_assoc]
      exact .token shaped kept ends (ih knownRest)

namespace Written

variable {tokens : List Token} {text : List Char}

/-- Standing tokens are scanned again. -/
theorem scans (written : Written tokens text) (standing : Standing tokens text) :
    Scans text tokens := by
  induction written with
  | nil => exact .nil
  | space _ ih => exact (ih ((standing_blank Text.isBlank_space).mp standing)).space
  | lineFeed _ ih => exact (ih ((standing_blank Text.isBlank_lineFeed).mp standing)).lineFeed
  | token shaped kept ends _ ih =>
      obtain ⟨here, behind⟩ := (standing_token shaped kept).mp standing
      obtain ⟨c, run, spelled, visible⟩ := shaped.visible kept
      rw [spelled]
      exact .scanned kept visible (scan_shaped shaped kept spelled ends here) (ih behind)

/-- Stable tokens stand wherever they are written. -/
theorem standing_of_stable (written : Written tokens text)
    (stable : ∀ token ∈ tokens, token.Stable) : Standing tokens text := by
  induction written with
  | nil => trivial
  | space _ ih => exact (standing_blank Text.isBlank_space).mpr (ih stable)
  | lineFeed _ ih => exact (standing_blank Text.isBlank_lineFeed).mpr (ih stable)
  | token shaped kept _ _ ih =>
      obtain ⟨here, later⟩ := List.forall_mem_cons.mp stable
      exact (standing_token shaped kept).mpr ⟨here.standsBefore shaped _, ih later⟩

end Written

/-- The text is scanned into these tokens, from some place on and without a fault. -/
def ScannedInto (text : List Char) (tokens : List Token) : Prop :=
  ∃ offset faults, Collector.isFull faults = false ∧
    (lexemesFrom offset faults text).2.finish = .ok () ∧
    tokensOf (significant (lexemesFrom offset faults text).1) = tokens

/-- In a scan without a fault, every place begins a token. -/
theorem scan_of_clean {c : Char} {rest : List Char} {offset : Nat} {faults : Collector}
    (room : faults.isFull = false)
    (clean : (lexemesFrom offset faults (c :: rest)).2.finish = .ok ()) :
    ∃ token more, scan c rest = .token token more := by
  cases result : scan c rest with
  | token token more => exact ⟨token, more, rfl⟩
  | fault code more =>
      rw [lexemesFrom, result] at clean
      dsimp only at clean
      generalize Span.between offset (if code = .strayCharacter then offset + 1
        else offset + byteLength (c :: rest.take more)) = span at clean
      have isError : (faultDiagnostic code span).severity = .error := rfl
      have recorded := faults.mem_emit room (faultDiagnostic code span)
      split at clean
      · exact absurd clean (Collector.finish_ne_ok recorded isError)
      · have kept := lexemesFrom_recorded (offset + byteLength (c :: rest.take (skipped code more)))
          (faults.emit (faultDiagnostic code span)) (rest.drop (skipped code more))
        exact absurd clean (Collector.finish_ne_ok (kept.subset recorded) isError)

theorem scan_brace {rest : List Char} {token : Token} {more : Nat}
    (scanned : scan '{' rest = .token token more) : token.isTrivia = false := by
  simp only [scan, Char.reduceEq, if_false, if_true] at scanned
  split at scanned
  · cases scanned
    rfl
  · cases scanned

/-- An action that is scanned from its text stands there. -/
theorem stands_of_scan {code : String} {run next : List Char} {more : Nat}
    (spelled : code.toList = '{' :: run)
    (scanned : scan '{' (run ++ next) = .token (.action code) more) :
    (Token.action code).StandsBefore next := by
  rintro _ ⟨⟩
  simp only [scan, Char.reduceEq, if_false, if_true] at scanned
  split at scanned
  next length found =>
    obtain ⟨taken, rfl⟩ := Scan.Result.token.inj scanned
    have texts := congrArg String.toList (Token.action.inj taken)
    rw [String.toList_ofList, spelled] at texts
    have size := congrArg List.length (List.cons.inj texts).2
    rw [List.length_take, Nat.min_eq_left (blockLength_le found)] at size
    rw [spelled, List.tail_cons, found, size]
  next => cases scanned

namespace ScannedInto

variable {text rest : List Char} {tokens : List Token}

theorem spaces {count : Nat} (scanned : ScannedInto (List.replicate count ' ' ++ text) tokens)
    (notBlank : text.takeWhile (fun d => Text.isBlank d && d != '\n') = []) :
    ScannedInto text tokens := by
  cases count with
  | zero => exact scanned
  | succ others =>
      obtain ⟨offset, faults, room, clean, same⟩ := scanned
      obtain ⟨span, start, begun⟩ := Scans.lexemesFrom_spaces notBlank others offset faults
      rw [begun] at clean same
      exact ⟨start, faults, room, clean, same⟩

theorem trivia {c : Char} {token : Token} {more : Nat}
    (scanned : ScannedInto (c :: rest) tokens) (here : scan c rest = .token token more)
    (passed : token.isTrivia = true) : ScannedInto (rest.drop more) tokens := by
  obtain ⟨offset, faults, room, clean, same⟩ := scanned
  rw [lexemesFrom_token here] at clean same
  refine ⟨_, faults, room, clean, ?_⟩
  rw [← same, significant, significant, List.filter_cons_of_neg (by simp [passed])]

theorem kept {c : Char} {token : Token} {more : Nat}
    (scanned : ScannedInto (c :: rest) tokens) (here : scan c rest = .token token more)
    (kept : token.isTrivia = false) :
    ∃ others, tokens = token :: others ∧ ScannedInto (rest.drop more) others := by
  obtain ⟨offset, faults, room, clean, same⟩ := scanned
  rw [lexemesFrom_token here] at clean same
  refine ⟨_, ?_, _, faults, room, clean, rfl⟩
  rw [← same, significant, significant, List.filter_cons_of_pos (by simp [kept])]
  rfl

/-- A written token that is found again stands. -/
theorem token {token : Token} (shaped : token.Shaped) (kept : token.isTrivia = false)
    (ends : token.EndsBefore rest)
    (scanned : ScannedInto (token.text.toList ++ rest) (token :: tokens)) :
    token.StandsBefore rest ∧ ScannedInto rest tokens := by
  obtain ⟨c, run, spelled, -⟩ := shaped.visible kept
  rw [spelled, List.cons_append] at scanned
  have stands : token.StandsBefore rest := by
    cases token with
    | action code =>
        obtain ⟨body, -, same, -⟩ := id shaped
        obtain ⟨rfl, rfl⟩ := List.cons.inj (spelled.symm.trans same)
        obtain ⟨offset, faults, room, clean, -⟩ := id scanned
        obtain ⟨found, more, here⟩ := scan_of_clean room clean
        obtain ⟨others, first, -⟩ := scanned.kept here (scan_brace here)
        obtain ⟨rfl, -⟩ := List.cons.inj first
        exact stands_of_scan spelled here
    | _ => exact nofun
  obtain ⟨others, first, later⟩ :=
    scanned.kept (scan_shaped shaped kept spelled ends stands) kept
  obtain ⟨-, rfl⟩ := List.cons.inj first
  rw [List.drop_left] at later
  exact ⟨stands, later⟩

end ScannedInto

/-- What is written and scanned again stands. -/
theorem Written.standing {tokens : List Token} {text : List Char} (written : Written tokens text) :
    ∀ count, ScannedInto (List.replicate count ' ' ++ text) tokens → Standing tokens text := by
  induction written with
  | nil => exact fun _ _ => trivial
  | space _ ih =>
      intro count scanned
      rw [standing_blank Text.isBlank_space]
      apply ih (count + 1)
      rwa [List.replicate_succ', List.append_assoc]
  | @lineFeed tokens text _ ih =>
      intro count scanned
      have feed : scan '\n' text = .token .lineFeed 0 := scan_of_no_sign (by decide) text
      rw [standing_blank Text.isBlank_lineFeed]
      exact ih 0 ((scanned.spaces rfl).trivia feed rfl)
  | @token token tokens text shaped kept ends _ ih =>
      intro count scanned
      obtain ⟨c, run, spelled, visible⟩ := shaped.visible kept
      have start : (token.text.toList ++ text).takeWhile
          (fun d => Text.isBlank d && d != '\n') = [] := by
        rw [spelled, List.cons_append, List.takeWhile_cons, visible]
        rfl
      obtain ⟨here, later⟩ := (scanned.spaces start).token shaped kept ends
      exact (standing_token shaped kept).mpr ⟨here, ih 0 later⟩

/-- The tokens of a written text are those of its scan if and only if they stand. -/
theorem Written.standing_iff {tokens : List Token} {text : String}
    (written : Written tokens text.toList) : Standing tokens text.toList ↔
      ∃ lexemes, tokenize text = .ok lexemes ∧ tokensOf (significant lexemes) = tokens := by
  constructor
  · intro standing
    obtain ⟨lexemes, scanned, same⟩ :=
      written.scans standing 0 0 (.withLimit Collector.defaultLimit)
    rw [List.replicate_zero, List.nil_append] at scanned
    refine ⟨lexemes, ?_, same⟩
    rw [tokenize, scanned]
    rfl
  · rintro ⟨lexemes, scanned, same⟩
    rw [tokenize] at scanned
    dsimp only at scanned
    split at scanned
    next clean =>
      cases scanned
      exact written.standing 0 ⟨0, .withLimit Collector.defaultLimit, rfl, clean, same⟩
    next => cases scanned

end Railroad
