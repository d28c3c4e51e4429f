import Railroad.Text.Lossy

/-!
# Excerpts

An excerpt is the part of a source that is shown for a stretch of it: the lines that the stretch
touches, and some lines around them.  Offsets are counted in bytes.
-/

namespace Railroad

/-- A part of a source, with the line and column at which it begins, counted from zero. -/
structure Excerpt where
  text : String
  offset : Nat
  length : Nat
  line : Nat
  column : Nat
  /-- Number of line breaks that were passed. -/
  lineCount : Nat
  deriving DecidableEq, Repr

namespace Excerpt

/-- The stretch to be shown, and the number of lines around it. -/
structure Request where
  offset : Nat
  length : Nat
  before : Nat
  after : Nat

/-- The offset of the last byte of the stretch. -/
def Request.last (request : Request) : Nat := request.offset + request.length - 1

/-- What is known when some bytes have been passed. -/
structure Cursor where
  offset : Nat
  lineCount : Nat
  line : Nat
  column : Nat
  /-- Where the shown lines before the stretch begin. -/
  earlier : List Nat
  lineStart : Nat
  /-- Number of whole lines passed after the stretch. -/
  later : Nat
  /-- Whether the stretch is over, and whether its last line is. -/
  isPast : Bool
  isPastLine : Bool

def Cursor.start : Cursor := ⟨0, 0, 0, 0, [], 0, 0, false, false⟩

/-- A line break before the stretch: the oldest of too many lines is dropped. -/
def Cursor.breakBefore (request : Request) (cursor : Cursor) : Cursor :=
  let earlier := cursor.earlier ++ [cursor.lineStart]
  if request.before < earlier.length then
    { cursor with column := 0, line := cursor.line + 1, earlier := earlier.drop 1 }
  else { cursor with column := 0, earlier }

/-- A line break after the stretch. -/
def Cursor.breakAfter (cursor : Cursor) : Cursor :=
  if cursor.isPastLine then { cursor with column := 0, later := cursor.later + 1 }
  else { cursor with column := 0, isPastLine := true }

/-- Passes one byte more. -/
def Cursor.advance (cursor : Cursor) : Cursor := { cursor with offset := cursor.offset + 1 }

/-- Goes on behind a byte, or ends there when enough lines have been passed. -/
def Cursor.passed (request : Request) (cursor : Cursor) : Cursor × Bool :=
  if request.last ≤ cursor.offset then
    let past := { cursor with isPast := true }
    (past.advance, decide (request.after ≤ past.later))
  else (cursor.advance, false)

/-- A line break, whose last byte the cursor stands on. -/
def Cursor.lineBreak (request : Request) (cursor : Cursor) : Cursor × Bool :=
  let cursor := { cursor with lineCount := cursor.lineCount + 1 }
  if cursor.offset < request.offset then
    let cursor := cursor.breakBefore request
    { cursor with lineStart := cursor.offset + 1 }.passed request
  else if request.offset + (request.length - 1) ≤ cursor.offset ∧ cursor.isPast then
    let cursor := cursor.breakAfter
    if request.after ≤ cursor.later then (cursor.advance, true)
    else { cursor with lineStart := cursor.offset + 1 }.passed request
  else { cursor with lineStart := cursor.offset + 1 }.passed request

/-- Any other byte. -/
def Cursor.plain (request : Request) (cursor : Cursor) : Cursor × Bool :=
  if cursor.offset < request.offset then
    { cursor with column := cursor.column + 1 }.passed request
  else cursor.passed request

def isLineBreak (byte : UInt8) : Bool := byte == 10 || byte == 13

/-- Passes the bytes of a source up to the end of the excerpt. -/
def scan (request : Request) (cursor : Cursor) : List UInt8 → Cursor
  | [] => cursor
  | 13 :: 10 :: rest =>
      let (next, ended) := cursor.advance.lineBreak request
      if ended then next else scan request next rest
  | byte :: rest =>
      let (next, ended) :=
        if isLineBreak byte then cursor.lineBreak request else cursor.plain request
      if ended then next else scan request next rest

/-- The excerpt of a source, unless the stretch lies outside of it. -/
def ofSource? (source : String) (request : Request) : Option Excerpt :=
  let bytes := source.toUTF8.toList
  let final := scan request .start bytes
  if request.last ≤ final.offset then
    let start := final.earlier.head?.getD (if request.before = 0 then request.offset else 0)
    if start ≤ final.offset then
      let shown := (bytes.drop start).take (final.offset - start)
      some {
        text := String.ofList (Text.decodeLossy shown)
        offset := start
        length := final.offset - start
        line := final.line
        column := if request.before = 0 then final.column else 0
        lineCount := final.lineCount }
    else none
  else none

end Excerpt

end Railroad
