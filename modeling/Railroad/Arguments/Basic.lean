/-!
# Arguments

What a command line asks for, and the reasons why one is not carried out.
-/

namespace Railroad

/-- What a run is asked to do. -/
structure Arguments where
  inputs : List String
  outputDirectory : String
  /-- The rule from which the shown rules are selected. -/
  root : Option String
  /-- Whether the diagram specifications are written too. -/
  writesSpecification : Bool
  settingsFile : Option String
  logLevel : String
  deriving DecidableEq, Repr

/-- Why a command line is not carried out. -/
inductive ArgumentStop where
  | missingInput
  | unknownOption
  | missingValue
  | repeatedOption
  | unexpectedValue
  | helpWanted
  | versionWanted
  deriving DecidableEq, Repr

end Railroad
