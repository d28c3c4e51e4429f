import Railroad.Text.Classes

/-!
# Paths

A path is a text whose slashes separate its pieces.  Empty pieces and single dots lead nowhere,
two dots lead up, and every other piece is the name of a file or a directory.
-/

namespace Railroad

namespace Path

/-- The pieces between the slashes. -/
def pieces (path : String) : List String := (path.toList.splitOn '/').map String.ofList

def isAbsolute (path : String) : Bool := path.toList.head? == some '/'

/-- Whether a piece stays where it is. -/
def isIdle (piece : String) : Bool := piece == "" || piece == "."

/-- The pieces that lead somewhere. -/
def steps (path : String) : List String := (pieces path).filter fun piece => !isIdle piece

/-- The name of the file or directory that a path ends in, unless it ends in a way up. -/
def name? (path : String) : Option String := (steps path).getLast?.filter (· != "..")

/-- A name without its last dot and what follows.  A dot in front of a name belongs to it. -/
def stemOf (name : String) : String :=
  match name.toList.reverse.dropWhile (· != '.') with
  | [] | [_] => name
  | _ :: reversed => String.ofList reversed.reverse

def stem? (path : String) : Option String := (name? path).map stemOf

/-- The path of a name in a directory. -/
def join (directory name : String) : String :=
  if directory.isEmpty || directory.toList.getLast? == some '/' then directory ++ name
  else directory ++ "/" ++ name

/-- Whether a path goes on with a single dot behind its last step. -/
def endsInDot (path : String) : Bool := ((pieces path).reverse.takeWhile isIdle).contains "."

/-- Whether a path is nothing or the root. -/
def isTop (path : String) : Bool := path.isEmpty || (isAbsolute path && (steps path).isEmpty)

end Path

end Railroad
