import Railroad.Settings.Basic
import Railroad.Toml.Reader

/-!
# Settings in TOML

The table `render` holds the measures and the table `document` the looks of the page.  Keys that
are left out keep their standard values and other keys mean nothing, but no number under them may
be larger than the numbers that are kept.
-/

namespace Railroad

namespace Settings

open Toml (Value Entries)

/-- The entries of a table, if those under other names than these can be passed over. -/
def named? (names : List String) (entries : Entries) : Option Entries :=
  if entries.all fun (name, value) => names.contains name || value.isReadable then some entries
  else none

/--
The fields of a section.  A section may also be an array, which gives values to the fields in
their order, or a date or a time, which gives none.
-/
def fields? (names : List String) : Option Value → Option Entries
  | none => some []
  | some (.table _ entries) => named? names entries
  | some (.array items) => some (names.zip items)
  | some .moment => some []
  | some _ => none

/-- The field under this name, or its standard value. -/
def field? {α : Type} (fields : Entries) (name : String) (decode : Value → Option α)
    (standard : α) : Option α :=
  match fields.get? name with
  | none => some standard
  | some value => decode value

/-- Integers of at most 64 bits and floats are rounded to single precision. -/
def number? : Value → Option Float32
  | .integer number =>
      if -(Int.pow 2 63) ≤ number ∧ number < Int.pow 2 64 then some (Float32.ofInt number) else none
  | .float number => some number.toFloat32
  | _ => none

def flag? : Value → Option Bool
  | .boolean flag => some flag
  | _ => none

def text? : Value → Option String
  | .text content => some content
  | _ => none

def metrics? (fields : Entries) : Option (Metrics Float32) := do
  let usual := Metrics.standard
  return {
    padding := ← field? fields "padding" number? usual.padding
    verticalSeparation := ← field? fields "vertical_separation" number? usual.verticalSeparation
    arcRadius := ← field? fields "arc_radius" number? usual.arcRadius
    charWidth := ← field? fields "char_width" number? usual.charWidth
    commentCharWidth := ← field? fields "comment_char_width" number? usual.commentCharWidth }

/-- The settings that a table holds. -/
def ofEntries? (entries : Entries) : Option Settings := do
  let entries ← named? ["render", "document"] entries
  let render ← fields?
    ["padding", "vertical_separation", "arc_radius", "char_width", "comment_char_width"]
    (entries.get? "render")
  let page ← fields? ["title", "cross_links", "comments"] (entries.get? "document")
  return {
    metrics := ← metrics? render
    title := ← field? page "title" (fun value => (text? value).map some) none
    crossLinks := ← field? page "cross_links" flag? true
    comments := ← field? page "comments" flag? true }

/-- The settings that a document holds, unless it is malformed. -/
def ofToml? (document : String) : Option Settings := (Toml.read? document).bind ofEntries?

end Settings

end Railroad
