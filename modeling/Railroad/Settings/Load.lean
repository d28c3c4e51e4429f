import Railroad.Failure
import Railroad.Files.Disk
import Railroad.Settings.OfToml

/-!
# Loading settings

Settings are looked for in a file that the user names, in the working directory and where the
platform keeps them.  Settings that are loaded have usable measures.
-/

namespace Railroad

namespace Settings

/-- The file that is looked for in the working directory. -/
def localFile : String := "railyard/config.toml"

/-- Settings whose measures a drawing can be made with. -/
def checked (settings : Settings) : Except SettingsFault Settings :=
  match settings.metrics.unusable? with
  | some (name, value) => .error (.unusableMetric name value)
  | none => .ok settings

/-- Reads settings from the text of a file. -/
def ofText (text : String) : Except SettingsFault Settings :=
  match ofToml? text with
  | none => .error .malformed
  | some settings => settings.checked

variable {m : Type → Type} [Monad m]

/-- The first of the paths that there is something at. -/
def firstPresent (disk : Disk m) : List String → m (Option String)
  | [] => pure none
  | path :: rest => do if ← disk.contains path then pure (some path) else firstPresent disk rest

/-- The file to read.  A file that the user names has to be there. -/
def locate (disk : Disk m) (named platformFile : Option String) :
    m (Except SettingsFault (Option String)) :=
  match named with
  | some path => do
      if ← disk.contains path then pure (.ok (some path)) else pure (.error (.missing path))
  | none => .ok <$> firstPresent disk (localFile :: platformFile.toList)

/-- The settings of a run: the standard ones where there is no file. -/
def load (disk : Disk m) (named platformFile : Option String) : m (Except Failure Settings) := do
  match ← locate disk named platformFile with
  | .error fault => pure (.error (.settings fault))
  | .ok none => pure (.ok standard)
  | .ok (some path) =>
      match ← disk.readText path with
      | .error fault => pure (.error (.disk fault))
      | .ok text => pure ((ofText text).mapError Failure.settings)

end Settings

end Railroad
