/-!
# Source spans

Positions in a source text count bytes of its UTF-8 form.  A span is a pair of positions in
order; slicing a text by a span succeeds only when both ends fall between characters.
-/

namespace Railroad

/-- A range of bytes in a source text. -/
structure Span where
  start : Nat
  stop : Nat
  start_le_stop : start ≤ stop
  deriving DecidableEq, Repr

namespace Span

/-- The span between two positions; an end before the start is moved up to it. -/
def between (start stop : Nat) : Span := ⟨start, max start stop, Nat.le_max_left start stop⟩

/-- The empty span at the beginning of a text. -/
def origin : Span := ⟨0, 0, Nat.le_refl 0⟩

instance : Inhabited Span := ⟨origin⟩

def length (span : Span) : Nat := span.stop - span.start

def isEmpty (span : Span) : Bool := span.start == span.stop

/-- The smallest span that holds both. -/
def union (first second : Span) : Span :=
  ⟨min first.start second.start, max first.stop second.stop,
    Nat.le_trans (Nat.min_le_left ..) (Nat.le_trans first.start_le_stop (Nat.le_max_left ..))⟩

end Span

/-- Number of bytes that the characters take in UTF-8. -/
def byteLength : List Char → Nat
  | [] => 0
  | c :: rest => c.utf8Size + byteLength rest

theorem byteLength_append (first second : List Char) :
    byteLength (first ++ second) = byteLength first + byteLength second := by
  induction first with
  | nil => simp [byteLength]
  | cons c rest ih => simp [byteLength, ih, Nat.add_assoc]

/-- Splits a text after the given number of bytes; fails inside a character or beyond the end. -/
def splitBytes : Nat → List Char → Option (List Char × List Char)
  | 0, cs => some ([], cs)
  | _ + 1, [] => none
  | count + 1, c :: rest =>
      if c.utf8Size ≤ count + 1 then
        (splitBytes (count + 1 - c.utf8Size) rest).map fun (before, after) => (c :: before, after)
      else none

theorem splitBytes_byteLength (before after : List Char) :
    splitBytes (byteLength before) (before ++ after) = some (before, after) := by
  induction before with
  | nil => simp [byteLength, splitBytes]
  | cons c rest ih =>
      have positive := c.utf8Size_pos
      obtain ⟨count, eq⟩ : ∃ count, byteLength (c :: rest) = count + 1 :=
        ⟨byteLength (c :: rest) - 1, by simp only [byteLength]; omega⟩
      have remaining : count + 1 - c.utf8Size = byteLength rest := by
        rw [← eq]; simp only [byteLength]; omega
      have fits : c.utf8Size ≤ count + 1 := by rw [← eq]; simp only [byteLength]; omega
      rw [eq, List.cons_append, splitBytes, if_pos fits, remaining, ih]
      rfl

/-- The characters of `source` inside `span`, if both ends fall between characters. -/
def Span.slice? (span : Span) (source : List Char) : Option (List Char) :=
  match splitBytes span.start source with
  | none => none
  | some (_, tail) => (splitBytes span.length tail).map Prod.fst

/-- A value together with the place it was read from. -/
structure Located (α : Type) where
  value : α
  span : Span
  deriving Repr

namespace Located

/-- The same value at the beginning of a text. -/
def unplaced {α : Type} (located : Located α) : Located α := ⟨located.value, .origin⟩

end Located

end Railroad
