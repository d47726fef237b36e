import SourceTables.Text.Blank

/-!
# `SourceTables.LogLevel`: how much is logged

A level is named in any letter case, with blanks around it. An empty name and `off` turn logging off.
-/

set_option autoImplicit false

namespace SourceTables

/-- What is logged. -/
inductive LogLevel where
  | off
  | error
  | warn
  | info
  | debug
deriving DecidableEq

/-- The level that a word names; the error is its text. -/
def LogLevel.ofWord (word : String) : Except String LogLevel :=
  let lower := (Text.trim word).toLower
  if lower = "" || lower = "off" then .ok .off
  else if lower = "error" then .ok .error
  else if lower = "warn" then .ok .warn
  else if lower = "info" then .ok .info
  else if lower = "debug" then .ok .debug
  else .error ("unknown log level '" ++ lower ++ "'")

/-- The name of a level; none if nothing is logged. -/
def LogLevel.name? : LogLevel → Option String
  | .off => none
  | .error => some "error"
  | .warn => some "warn"
  | .info => some "info"
  | .debug => some "debug"

end SourceTables
