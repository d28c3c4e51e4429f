import Railroad.Arguments.Reader
import Railroad.Report.Basic
import Railroad.Run.Basic

/-!
# The program

Reads the command line, does the run on the files of the system and tells what failed.
-/

namespace Railroad

namespace Program

def faultOf : IO.Error → DiskFault
  | .noFileOrDirectory .. => .notFound
  | .alreadyExists .. => .alreadyExists
  | .inappropriateType _ 20 _ => .notDirectory
  | .inappropriateType _ 21 _ => .isDirectory
  | .invalidArgument _ 36 _ => .nameTooLong
  | error => .other (toString error)

def attempt {α : Type} (action : IO α) : IO (Except DiskFault α) := do
  try return .ok (← action) catch error => return .error (faultOf error)

/-- The files of the system. -/
def systemDisk : Disk IO where
  contains path := return (← attempt (IO.FS.realPath path)).toBool
  readText path := do
    match ← attempt (IO.FS.readBinFile path) with
    | .error fault => return .error fault
    | .ok bytes =>
        match String.fromUTF8? bytes with
        | some text => return .ok text
        | none => return .error .invalidText
  writeText path text := attempt (IO.FS.writeFile path text)
  createDirectories path := do
    if Path.isTop path then return .ok () else attempt (IO.FS.createDirAll path)

/-- Where the platform keeps the settings of its programs. -/
def platformFile? : IO (Option String) := do
  let named := (← IO.getEnv "XDG_CONFIG_HOME").filter Path.isAbsolute
  let usual := (← IO.getEnv "HOME").map fun home => Path.join home ".config"
  return (named <|> usual).map fun directory => Path.join directory Settings.localFile

def usage : String :=
  "usage: railroad [-o DIRECTORY] [-r RULE] [--dsl] [-c FILE] [--log-level LEVEL] GRAMMAR..."

def stopText : ArgumentStop → String
  | .missingInput => "no grammar file given"
  | .unknownOption => "unknown option"
  | .missingValue => "an option has no value"
  | .repeatedOption => "an option is given more than once"
  | .unexpectedValue => "an option that takes no value has one"
  | .helpWanted | .versionWanted => usage

def severityText : Option Severity → String
  | some .warning => "warning"
  | _ => "error"

def reportText (report : Report) : String :=
  severityText report.severity ++ report.code.elim "" (fun code => "[" ++ code ++ "]") ++ ": " ++
    report.message ++ report.help.elim "" fun help => "\n  help: " ++ help

/-- Tells everything that failed. -/
def tell (failure : RunFailure) : IO Unit := do
  for (input, cause) in failure.failures do
    for report in Report.ofFailure input cause do
      IO.eprintln (reportText report)
  IO.eprintln failure.message

end Program

end Railroad

open Railroad in
def main (words : List String) : IO UInt32 := do
  match Arguments.read words with
  | .error stop =>
      if stop = .helpWanted ∨ stop = .versionWanted then
        IO.println (Program.stopText stop)
        return 0
      else
        IO.eprintln (Program.stopText stop ++ "\n" ++ Program.usage)
        return 2
  | .ok arguments =>
      match ← run Program.systemDisk (← Program.platformFile?) arguments with
      | .ok () => return 0
      | .error failure =>
          if arguments.logLevel != "off" then Program.tell failure
          return 1
