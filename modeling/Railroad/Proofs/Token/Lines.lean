import Railroad.Proofs.Diagram.Quoting
import Railroad.Proofs.Token.Slices

/-!
# Literals and lines

A literal ends on the line that it begins on, where a line break that a backslash takes does not
end the line.  A quote that has no partner on its line is a fault, unless nothing is scanned there
any more.
-/

namespace Railroad

open Label Scan

/-- A character of `barred` that no backslash takes. -/
def Label.Piece.isBare (barred : List Char) : Piece → Bool
  | .plain c => c ∈ barred
  | .escaped _ | .lone => false

/-- The pieces of a text up to the first character of `barred` that no backslash takes. -/
def Label.piecesBefore (barred text : List Char) : List Piece :=
  (pieces text).takeWhile fun piece => !piece.isBare barred

def lineBreaks : List Char := ['\n', '\r']

/-- A form is closed if its delimiter comes before a barred character, not counting either of them
where a backslash takes it. -/
theorem Scan.reach_closed_iff {delimiter : Char} {barred : List Char} (free : delimiter ∉ barred)
    (text : List Char) : (reach delimiter barred text).closed = true ↔
      .plain delimiter ∈ piecesBefore barred text := by
  unfold piecesBefore
  fun_induction reach delimiter barred text with
  | case1 => simp [pieces]
  | case2 => simp [pieces, Piece.isBare]
  | case3 taken tail ih => simpa [Piece.isBare, Reach.after] using ih
  | case4 rest notEscape => simp [pieces_plain notEscape, Piece.isBare, free]
  | case5 c rest notEscape notDelimiter isBarred =>
      simp [pieces_plain notEscape, Piece.isBare, isBarred]
  | case6 c rest notEscape notDelimiter notBarred ih =>
      simpa [pieces_plain notEscape, Piece.isBare, notBarred, Reach.after, Ne.symm notDelimiter]
        using ih

/-- Up to its delimiter, a form holds barred characters only behind backslashes. -/
theorem Scan.not_isBare_of_reach {delimiter : Char} {barred body : List Char}
    (free : delimiter ∉ barred) (closed : reach delimiter barred body = ⟨body.length, true⟩) :
    ∀ piece ∈ pieces body, piece.isBare barred = false := by
  fun_induction reach delimiter barred body with
  | case1 => cases closed
  | case2 => cases closed
  | case3 taken tail ih =>
      rw [pieces_escaped, List.forall_mem_cons]
      exact ⟨rfl, ih (reach_of_after closed)⟩
  | case4 rest notEscape =>
      obtain ⟨size, -⟩ := Reach.mk.inj closed
      obtain rfl := List.eq_nil_of_length_eq_zero (Nat.succ.inj size).symm
      rw [pieces_plain notEscape, pieces, List.forall_mem_singleton]
      exact decide_eq_false free
  | case5 => cases closed
  | case6 c tail notEscape notDelimiter notBarred ih =>
      rw [pieces_plain notEscape, List.forall_mem_cons]
      exact ⟨decide_eq_false notBarred, ih (reach_of_after closed)⟩

/-- The places of a source at which the scan looks for a token: what stands before and behind the
place, and the faults found so far. -/
inductive Visits (source : List Char) : List Char → Collector → List Char → Prop where
  | start : Visits source [] (.withLimit Collector.defaultLimit) source
  | token {before rest : List Char} {faults : Collector} {c : Char} {token : Token} {more : Nat}
      (visited : Visits source before faults (c :: rest)) (scanned : scan c rest = .token token more) :
      Visits source (before ++ c :: rest.take more) faults (rest.drop more)
  | fault {before rest : List Char} {faults found : Collector} {c : Char} {code : Code} {more : Nat}
      (visited : Visits source before faults (c :: rest)) (failed : scan c rest = .fault code more)
      (goesOn : endsScan code = false) (room : found.isFull = false)
      (emitted : found = faults.emit (faultDiagnostic code (.between (byteLength before)
        (if code = .strayCharacter then byteLength before + 1
          else byteLength before + byteLength (c :: rest.take more))))) :
      Visits source (before ++ c :: rest.take (skipped code more)) found
        (rest.drop (skipped code more))

namespace Visits

variable {source before rest : List Char} {faults : Collector}

theorem room (visited : Visits source before faults rest) : faults.isFull = false := by
  induction visited with
  | start => rfl
  | token visited scanned ih => exact ih
  | fault visited failed goesOn room emitted ih => exact room

/-- The faults of the source are those of the scan that goes on here. -/
theorem collected (visited : Visits source before faults rest) :
    (lexemesFrom 0 (.withLimit Collector.defaultLimit) source).2 =
      (lexemesFrom (byteLength before) faults rest).2 := by
  induction visited with
  | start => rfl
  | token visited scanned ih =>
      rw [ih, lexemesFrom, byteLength_append]
      simp only [scanned]
  | fault visited failed goesOn room emitted ih =>
      subst emitted
      rw [ih, lexemesFrom, byteLength_append]
      simp only [failed, goesOn, room, Bool.or_self, Bool.false_eq_true, if_false]

end Visits

/-- A source is rejected with all that has been recorded, if an error is among it. -/
theorem tokenize_eq_error {source : String} {diagnostic : Diagnostic}
    (recorded : diagnostic ∈
      (lexemesFrom 0 (.withLimit Collector.defaultLimit) source.toList).2.recorded)
    (isError : diagnostic.severity = .error) : tokenize source =
      .error ⟨(lexemesFrom 0 (.withLimit Collector.defaultLimit) source.toList).2.recorded⟩ := by
  have failed := Collector.finish_eq_error (Collector.finish_ne_ok recorded isError)
  unfold tokenize
  dsimp only
  rw [failed]

/-- A fault at a visited place is reported there. -/
theorem rejected_of_visits {source : String} {before rest : List Char} {faults : Collector} {c : Char}
    {code : Code} {more : Nat} (visited : Visits source.toList before faults (c :: rest))
    (failed : scan c rest = .fault code more) :
    ∃ rejection, tokenize source = .error rejection ∧
      ∃ span : Span, span.start = byteLength before ∧
        faultDiagnostic code span ∈ rejection.diagnostics := by
  obtain ⟨span, place, reported⟩ : ∃ span : Span, span.start = byteLength before ∧
      faultDiagnostic code span ∈
        (lexemesFrom (byteLength before) faults (c :: rest)).2.recorded := by
    refine ⟨.between (byteLength before) (if code = .strayCharacter then byteLength before + 1
      else byteLength before + byteLength (c :: rest.take more)), rfl, ?_⟩
    rw [lexemesFrom]
    simp only [failed]
    generalize (if code = .strayCharacter then byteLength before + 1
      else byteLength before + byteLength (c :: rest.take more)) = stop
    split
    · exact faults.mem_emit visited.room _
    · exact (lexemesFrom_recorded ..).subset (faults.mem_emit visited.room _)
  rw [← visited.collected] at reported
  exact ⟨_, tokenize_eq_error reported rfl, span, place, reported⟩

/-- A quote without a partner on its line is a fault. -/
theorem scan_quote_open {rest : List Char} (unclosed : .plain '\'' ∉ piecesBefore lineBreaks rest) :
    ∃ more, scan '\'' rest = .fault .openString more := by
  have missing : (reach '\'' ['\n', '\r'] rest).closed = false := by
    rw [← Bool.not_eq_true, reach_closed_iff (by decide)]
    exact unclosed
  refine ⟨(reach '\'' ['\n', '\r'] rest).length, ?_⟩
  rw [scan, if_neg (by decide), if_pos rfl]
  simp only [missing, Bool.false_eq_true, if_false]

theorem literal_unbroken {text : String} (shaped : (Token.literal text).Shaped) :
    ∀ piece ∈ pieces text.toList, piece.isBare lineBreaks = false := by
  obtain ⟨body, spelled, closed⟩ := shaped
  rw [spelled, pieces_plain (by decide), List.forall_mem_cons]
  exact ⟨rfl, not_isBare_of_reach (by decide) closed⟩

/--
A line break stands in a literal only behind a backslash that takes it.  Wherever the scan comes to
a quote that has no partner, not behind a backslash, in front of the next line break that no
backslash takes, the source is rejected with an unterminated literal at this quote.
-/
theorem literals_in_line (source : String) :
    (∀ lexemes, tokenize source = .ok lexemes → ∀ lexeme ∈ lexemes, ∀ text,
      lexeme.token = .literal text → ∀ c ∈ lineBreaks, .plain c ∉ pieces text.toList) ∧
    ∀ before faults rest, Visits source.toList before faults ('\'' :: rest) →
      .plain '\'' ∉ piecesBefore lineBreaks rest →
        ∃ rejection, tokenize source = .error rejection ∧
          ∃ diagnostic ∈ rejection.diagnostics, diagnostic.severity = .error ∧
            diagnostic.code = some .openString ∧
            diagnostic.labels.map (fun label => (label.kind, label.span.start)) =
              [(.primary, byteLength before)] := by
  refine ⟨fun lexemes scanned lexeme listed text same c isBreak inside => ?_, ?_⟩
  · have shaped := tokenize_shaped scanned lexeme listed
    rw [same] at shaped
    have bare := literal_unbroken shaped _ inside
    exact absurd isBreak (of_decide_eq_false bare)
  · intro before faults rest visited unclosed
    obtain ⟨more, failed⟩ := scan_quote_open unclosed
    obtain ⟨rejection, rejected, span, place, reported⟩ := rejected_of_visits visited failed
    exact ⟨rejection, rejected, _, reported, rfl, rfl, by rw [← place]; rfl⟩

theorem literals_in_line_open :
    (∃ lexemes lexeme, tokenize "a : 'b\\\r\\'c' 'd';" = .ok lexemes ∧ lexeme ∈ lexemes ∧
      lexeme.token = .literal "'b\\\r\\'c'" ∧
      ∀ c ∈ lineBreaks, .plain c ∉ pieces "'b\\\r\\'c'".toList) ∧
    ∃ faults, Visits "$ 'é\\\n\\'\r'".toList "$ ".toList faults "'é\\\n\\'\r'".toList ∧
      ∃ rejection, tokenize "$ 'é\\\n\\'\r'" = .error rejection ∧
        ∃ diagnostic ∈ rejection.diagnostics, diagnostic.severity = .error ∧
          diagnostic.code = some .openString ∧
          diagnostic.labels.map (fun label => (label.kind, label.span.start)) =
            [(.primary, byteLength "$ ".toList)] := by
  constructor
  · have known : (match tokenize "a : 'b\\\r\\'c' 'd';" with
      | .ok lexemes => lexemes.any fun lexeme =>
          decide (lexeme.token = .literal "'b\\\r\\'c'")
      | .error _ => false) = true := by decide +kernel
    cases scanned : tokenize "a : 'b\\\r\\'c' 'd';" with
    | error rejection => rw [scanned] at known; cases known
    | ok lexemes =>
        rw [scanned] at known
        obtain ⟨lexeme, listed, same⟩ := List.any_eq_true.mp known
        have literal := of_decide_eq_true same
        exact ⟨lexemes, lexeme, rfl, listed, literal,
          (literals_in_line _).1 lexemes scanned lexeme listed _ literal⟩
  · have stray : scan '$' " 'é\\\n\\'\r'".toList = .fault .strayCharacter 0 := by rfl
    have blank : scan ' ' "'é\\\n\\'\r'".toList = .token .blanks 0 := by rfl
    have begun : Visits "$ 'é\\\n\\'\r'".toList [] (.withLimit Collector.defaultLimit)
        ('$' :: " 'é\\\n\\'\r'".toList) := .start
    have visited := (begun.fault stray rfl rfl rfl).token blank
    have unclosed : .plain '\'' ∉ piecesBefore lineBreaks "é\\\n\\'\r'".toList := by
      simp [piecesBefore, pieces, Piece.isBare, lineBreaks]
    exact ⟨_, visited, (literals_in_line _).2 _ _ _ visited unclosed⟩

/-- A backslash carries a literal over the end of its line. -/
theorem literal_across_lines : ∃ lexemes lexeme, tokenize "'a\\\nb'" = .ok lexemes ∧
    lexeme ∈ lexemes ∧ ∃ text, lexeme.token = .literal text ∧ '\n' ∈ text.toList := by
  have known : (match tokenize "'a\\\nb'" with
    | .ok lexemes => lexemes.any fun lexeme => decide (lexeme.token = .literal "'a\\\nb'")
    | .error _ => false) = true := by decide +kernel
  cases scanned : tokenize "'a\\\nb'" with
  | error rejection => rw [scanned] at known; cases known
  | ok lexemes =>
      rw [scanned] at known
      obtain ⟨lexeme, listed, same⟩ := List.any_eq_true.mp known
      exact ⟨lexemes, lexeme, rfl, listed, _, of_decide_eq_true same, by decide⟩

end Railroad
