import Railroad.Grammar.Basic

/-!
# Declaration blocks

The braces of an `options`, `tokens` or `channels` block hold entries between separators.  Blanks
around an entry do not count, and an entry without a name declares nothing.
-/

namespace Railroad

namespace Declarations

/-- The text between the braces, or the whole text if one of them is missing. -/
def inner (body : List Char) : List Char :=
  match body with
  | '{' :: rest => if rest.getLast? = some '}' then rest.dropLast else body
  | _ => body

def setting? (entry : List Char) : Option Setting :=
  match Text.splitOnce '=' entry with
  | none => none
  | some (name, value) =>
      match Text.trim name with
      | [] => none
      | trimmed => some ⟨String.ofList trimmed, String.ofList (Text.trim value)⟩

def name? (entry : List Char) : Option String :=
  match Text.trim entry with
  | [] => none
  | trimmed => some (String.ofList trimmed)

/-- The settings of an `options` block. -/
def settings (body : String) : List Setting :=
  ((inner body.toList).splitOn ';').filterMap setting?

/-- The names of a `tokens` or `channels` block. -/
def names (body : String) : List String :=
  ((inner body.toList).splitOn ',').filterMap name?

end Declarations

end Railroad
