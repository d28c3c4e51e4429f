import Railroad.Drawing.Svg
import Railroad.Files.Basic
import Railroad.Source.Diagnostic

/-!
# Failures

Everything that can keep a page from being made.
-/

namespace Railroad

/-- Why a configuration is refused. -/
inductive SettingsFault where
  | missing (path : String)
  | malformed
  | unusableMetric (name : String) (value : Float32)
  | other (reason : String)

def SettingsFault.message : SettingsFault → String
  | missing path => "Missing configuration file: " ++ path
  | malformed => "Failed to parse TOML configuration"
  | unusableMetric name value =>
      "render." ++ name ++ " must be a finite, non-negative number, got " ++ Decimal.text value
  | other reason => reason

inductive Failure where
  | disk (fault : DiskFault)
  /-- The source is kept, since the diagnostics point into it. -/
  | grammar (rejection : Rejection) (source : String)
  | drawing (rule : String) (reason : RenderError)
  | settings (fault : SettingsFault)

def Failure.message : Failure → String
  | disk fault => "I/O error: " ++ fault.message
  | grammar rejection _ => rejection.message
  | drawing rule reason => "Failed to render rule `" ++ rule ++ "`: " ++ reason.message
  | settings fault => "Configuration error: " ++ fault.message

end Railroad
