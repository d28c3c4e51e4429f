import Railroad.Token.Scan

/-!
# Reading a text into lexemes

The text is scanned token by token.  Every fault becomes a diagnostic; after a fault one
character is passed over, unless the fault swallows the rest of the text or the collector is
full.  A text with any fault is rejected with all diagnostics found.
-/

namespace Railroad

namespace Scan

/-- An open block has no end before the end of the text, so nothing behind it is scanned. -/
def endsScan : Code → Bool
  | .openAction | .openSet | .openComment => true
  | _ => false

/-- How to mend a fault. -/
def help : Code → Option String
  | .openString => some "add closing `'` before the end of the line"
  | .openAction => some "add the matching `\x7d`"
  | .openSet => some "add closing `]`"
  | .openComment => some "close the comment with `*/`"
  | _ => none

/-- The label covers the faulty stretch, or a single byte where no token can begin. -/
def faultDiagnostic (code : Code) (span : Span) : Diagnostic where
  severity := .error
  code := some code
  message := code.description
  labels := [⟨.primary, span, code.description⟩]
  help := help code

/-- Number of characters after the first that are passed over with a fault. -/
def skipped (code : Code) (more : Nat) : Nat :=
  match code with
  | .strayCharacter => 0
  | _ => more + 1

end Scan

open Scan in
/-- Scans the text that begins `offset` bytes into the source. -/
def lexemesFrom (offset : Nat) (faults : Collector) : List Char → List Lexeme × Collector
  | [] => ([], faults)
  | c :: rest =>
      match scan c rest with
      | .token token more =>
          let stop := offset + byteLength (c :: rest.take more)
          let tail := lexemesFrom stop faults (rest.drop more)
          (⟨token, .between offset stop⟩ :: tail.1, tail.2)
      | .fault code more =>
          let stop :=
            if code = .strayCharacter then offset + 1 else offset + byteLength (c :: rest.take more)
          let found := faults.emit (faultDiagnostic code (.between offset stop))
          if endsScan code || found.isFull then ([], found)
          else
            let passed := skipped code more
            lexemesFrom (offset + byteLength (c :: rest.take passed)) found (rest.drop passed)
termination_by text => text.length
decreasing_by
  all_goals simp only [List.length_cons, List.length_drop]; omega

/-- All lexemes of a source, trivia included, or every fault found in it. -/
def tokenize (source : String) : Except Rejection (List Lexeme) :=
  let (lexemes, faults) := lexemesFrom 0 (.withLimit Collector.defaultLimit) source.toList
  match faults.finish with
  | .ok () => .ok lexemes
  | .error rejection => .error rejection

end Railroad
