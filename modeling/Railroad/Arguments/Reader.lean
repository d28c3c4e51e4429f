import Railroad.Arguments.Basic
import Railroad.Catalog
import Railroad.Text.Classes

/-!
# Reading a command line

The command line is read word by word.  An option without an attached value takes the next word
that is not an option itself.  It is settled, and its faults are found, only when something else
is read; an unknown option is refused before that.
-/

namespace Railroad

namespace Arguments

/-- The options that take a value. -/
inductive ValueOption where
  | outputDirectory
  | root
  | settingsFile
  | logLevel
  deriving DecidableEq, Repr

/-- The options that take none. -/
inductive Flag where
  | specification
  | help
  | version
  deriving DecidableEq, Repr

inductive Switch where
  | valued (option : ValueOption)
  | plain (flag : Flag)
  deriving DecidableEq, Repr

/-- The option with this long name. -/
def long? (name : String) : Option Switch :=
  match name with
  | "output-dir" => some (.valued .outputDirectory)
  | "root" => some (.valued .root)
  | "config" => some (.valued .settingsFile)
  | "log-level" => some (.valued .logLevel)
  | "dsl" => some (.plain .specification)
  | "help" => some (.plain .help)
  | "version" => some (.plain .version)
  | _ => none

/-- The option with this letter. -/
def short? (letter : Char) : Option Switch :=
  match letter with
  | 'o' => some (.valued .outputDirectory)
  | 'r' => some (.valued .root)
  | 'c' => some (.valued .settingsFile)
  | 'h' => some (.plain .help)
  | 'V' => some (.plain .version)
  | _ => none

/-- What has been read of a command line. -/
structure Draft where
  inputs : List String
  values : Catalog ValueOption String
  writesSpecification : Bool
  /-- The option that was read last and is not settled yet, with its value. -/
  unsettled : Option (ValueOption × Option String)
  /-- Whether all other words are inputs. -/
  onlyInputs : Bool

abbrev Progress := Except ArgumentStop Draft

namespace Draft

def empty : Draft := ⟨[], .empty, false, none, false⟩

def assign (draft : Draft) (option : ValueOption) (value : String) : Progress :=
  if draft.values.contains option then .error .repeatedOption
  else .ok { draft with values := draft.values.put option value }

def settle (draft : Draft) : Progress :=
  match draft.unsettled with
  | none => .ok draft
  | some (_, none) => .error .missingValue
  | some (option, some value) => { draft with unsettled := none }.assign option value

def addInput (draft : Draft) (input : String) : Progress := do
  let draft ← draft.settle
  return { draft with inputs := draft.inputs ++ [input] }

def raise (draft : Draft) (flag : Flag) : Progress := do
  let draft ← draft.settle
  match flag with
  | .help => throw .helpWanted
  | .version => throw .versionWanted
  | .specification =>
      if draft.writesSpecification then throw .repeatedOption
      else return { draft with writesSpecification := true }

/-- An option, with the value that is attached to it. -/
def takeOption (draft : Draft) (option : ValueOption) (attached : Option String) : Progress := do
  let draft ← draft.settle
  match attached with
  | some value => draft.assign option value
  | none => return { draft with unsettled := some (option, none) }

/-- A long option, behind its two dashes. -/
def takeLong (draft : Draft) (text : List Char) : Progress :=
  let (name, attached) := match Text.splitOnce '=' text with
    | some (name, value) => (String.ofList name, some (String.ofList value))
    | none => (String.ofList text, none)
  match long? name, attached with
  | none, _ => .error .unknownOption
  | some (.valued option), _ => draft.takeOption option attached
  | some (.plain _), some _ => .error .unexpectedValue
  | some (.plain flag), none => draft.raise flag

/-- The letters behind one dash.  What follows an option that takes a value is its value. -/
def takeShort (draft : Draft) : List Char → Progress
  | [] => .ok draft
  | letter :: rest =>
      match short? letter with
      | none => .error .unknownOption
      | some (.plain flag) => do takeShort (← draft.raise flag) rest
      | some (.valued option) =>
          match rest with
          | [] => draft.takeOption option none
          | '=' :: value => draft.takeOption option (some (String.ofList value))
          | value => draft.takeOption option (some (String.ofList value))

/-- A word that is no option: the value that is waited for, or an input. -/
def takePlain (draft : Draft) (word : String) : Progress :=
  match draft.unsettled with
  | some (option, none) => .ok { draft with unsettled := some (option, some word) }
  | _ => draft.addInput word

def take (draft : Draft) (word : String) : Progress :=
  if draft.onlyInputs then draft.addInput word
  else
    match word.toList with
    | ['-', '-'] => .ok { draft with onlyInputs := true }
    | '-' :: '-' :: text => draft.takeLong text
    | '-' :: letter :: rest => draft.takeShort (letter :: rest)
    | _ => draft.takePlain word

/-- The finished arguments, with the standard values of what is left out. -/
def finish (draft : Draft) : Except ArgumentStop Arguments := do
  let draft ← draft.settle
  if draft.inputs.isEmpty then throw .missingInput
  return {
    inputs := draft.inputs
    outputDirectory := (draft.values.get? .outputDirectory).getD "."
    root := draft.values.get? .root
    writesSpecification := draft.writesSpecification
    settingsFile := draft.values.get? .settingsFile
    logLevel := (draft.values.get? .logLevel).getD "info" }

end Draft

/-- Reads the words behind the name of the program. -/
def read (words : List String) : Except ArgumentStop Arguments := do
  (← words.foldlM Draft.take .empty).finish

end Arguments

end Railroad
