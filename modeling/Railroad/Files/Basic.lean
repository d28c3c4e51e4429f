import Railroad.Catalog
import Railroad.Files.Path

/-!
# Files

Files and directories stand at places.  A path is walked piece by piece, and every piece but the
last has to be a directory.
-/

namespace Railroad

/-- Why something could not be done with a file. -/
inductive DiskFault where
  | notFound
  | alreadyExists
  | notDirectory
  | isDirectory
  | nameTooLong
  | nulInPath
  | invalidText
  /-- The output of this name belongs to an earlier input. -/
  | outputTaken (output first : String)
  | other (reason : String)
  deriving DecidableEq, Repr

namespace DiskFault

def systemText (reason : String) (number : Nat) : String :=
  reason ++ " (os error " ++ toString number ++ ")"

def message : DiskFault → String
  | notFound => systemText "No such file or directory" 2
  | alreadyExists => systemText "File exists" 17
  | notDirectory => systemText "Not a directory" 20
  | isDirectory => systemText "Is a directory" 21
  | nameTooLong => systemText "File name too long" 36
  | nulInPath => "file name contained an unexpected NUL byte"
  | invalidText => "stream did not contain valid UTF-8"
  | outputTaken output first => "`" ++ output ++ "` is already written for `" ++ first ++ "`"
  | other reason => reason

end DiskFault

/-- What stands at a place. -/
inductive Node where
  | file (bytes : ByteArray)
  | directory

/-- Where something stands.  Places of different depths are told apart without their names. -/
structure Place where
  depth : Nat
  /-- The names from the place itself up to the root. -/
  names : List String
  depth_eq : depth = names.length
  deriving DecidableEq

namespace Place

def root : Place := ⟨0, [], rfl⟩

def child (place : Place) (name : String) : Place :=
  ⟨place.depth + 1, name :: place.names, congrArg Nat.succ place.depth_eq⟩

/-- The directory that a place is in.  The root is in itself. -/
def parent : Place → Place
  | ⟨_, [], _⟩ => root
  | ⟨_, _ :: names, _⟩ => ⟨names.length, names, rfl⟩

/-- The names that lead from `top` to a place below it. -/
def namesFrom? (top place : Place) : Option (List String) :=
  let names := place.names.take (place.depth - top.depth)
  if names ≠ [] ∧ names ++ top.names = place.names then some names.reverse else none

theorem parent_child (place : Place) (name : String) : (place.child name).parent = place := by
  obtain ⟨_, names, rfl⟩ := place
  rfl

end Place

structure Files where
  nodes : Catalog Place Node
  workingDirectory : Place

namespace Files

/-- What stands at a place.  The root is always a directory. -/
def node? (files : Files) (place : Place) : Option Node :=
  if place = .root then some .directory else files.nodes.get? place

def put (files : Files) (place : Place) (node : Node) : Files :=
  { files with nodes := files.nodes.put place node }

/-- The largest number of bytes in a name. -/
def longestName : Nat := 255

/-- The largest number of bytes in a path. -/
def longestPath : Nat := 4095

/-- Where a piece of a path leads. -/
def follow (place : Place) (piece : String) : Place :=
  if Path.isIdle piece then place
  else if piece = ".." then place.parent
  else place.child piece

/-- Walks the pieces of a path.  There need not be anything at the place where the walk ends. -/
def walk (files : Files) (place : Place) : List String → Except DiskFault Place
  | [] => .ok place
  | piece :: rest =>
      match files.node? place with
      | none => .error .notFound
      | some (.file _) => .error .notDirectory
      | some .directory =>
          if longestName < piece.utf8ByteSize then .error .nameTooLong
          else files.walk (follow place piece) rest

/-- Where the way along a path begins. -/
def start (files : Files) (path : String) : Place :=
  if Path.isAbsolute path then .root else files.workingDirectory

/-- Whether a path can be asked for at all. -/
def checkPath (path : String) : Except DiskFault Unit :=
  if '\x00' ∈ path.toList then .error .nulInPath
  else if path = "" then .error .notFound
  else if longestPath < path.utf8ByteSize then .error .nameTooLong
  else .ok ()

/-- The place of a path. -/
def place (files : Files) (path : String) : Except DiskFault Place :=
  match checkPath path with
  | .error fault => .error fault
  | .ok () => files.walk (files.start path) (Path.pieces path)

/-- What a path leads to. -/
def find (files : Files) (path : String) : Except DiskFault Node :=
  match files.place path with
  | .error fault => .error fault
  | .ok place =>
      match files.node? place with
      | none => .error .notFound
      | some node => .ok node

def contains (files : Files) (path : String) : Bool :=
  match files.find path with
  | .ok _ => true
  | .error _ => false

def isDirectory (files : Files) (path : String) : Bool :=
  match files.find path with
  | .ok .directory => true
  | _ => false

def readText (files : Files) (path : String) : Except DiskFault String :=
  match files.find path with
  | .error fault => .error fault
  | .ok .directory => .error .isDirectory
  | .ok (.file bytes) =>
      match String.fromUTF8? bytes with
      | some text => .ok text
      | none => .error .invalidText

/-- Replaces a file or makes a new one. -/
def writeText (files : Files) (path text : String) : Except DiskFault Files :=
  match files.place path with
  | .error fault => .error fault
  | .ok place =>
      match files.node? place with
      | some .directory => .error .isDirectory
      | _ => .ok (files.put place (.file text.toUTF8))

/--
Goes down the steps of a path and makes the directories that are missing, except for the last
one where it has to be there already.  A file in the way is a name that is taken if it is the
last step to be made or a directory has been `made` before it, and otherwise no directory.
-/
def descend (lastIsThere made : Bool) (files : Files) (place : Place) :
    List String → Except DiskFault Files
  | [] => .ok files
  | step :: rest =>
      if step = ".." then files.descend lastIsThere made place.parent rest
      else if longestName < step.utf8ByteSize then .error .nameTooLong
      else
        let next := place.child step
        match files.node? next with
        | some .directory => files.descend lastIsThere made next rest
        | some (.file _) =>
            if rest.isEmpty && lastIsThere then .error .notDirectory
            else if rest.isEmpty || made then .error .alreadyExists
            else .error .notDirectory
        | none =>
            if rest.isEmpty && lastIsThere then .error .notFound
            else (files.put next .directory).descend lastIsThere true next rest

/-- Makes a directory, together with the directories above it that are not there yet. -/
def createDirectories (files : Files) (path : String) : Except DiskFault Files :=
  if Path.isTop path then .ok files
  else
    match checkPath path with
    | .error fault => .error fault
    | .ok () => files.descend (Path.endsInDot path) false (files.start path) (Path.steps path)

end Files

end Railroad
