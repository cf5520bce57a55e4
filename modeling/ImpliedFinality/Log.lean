/-! # Log lines

A line about an event is a list of values separated by commas, of which the first two are the name
of the event and its time. -/

namespace ImpliedFinality

/-- How urgent a line is. -/
inductive LogLevel
  | debug
  | info
  | warn
  | error
deriving DecidableEq

/-- The word for a level in front of a line. -/
def LogLevel.name : LogLevel → String
  | debug => "DEBUG"
  | info => "INFO"
  | warn => "WARN"
  | error => "ERROR"

/-- A text with its level. -/
structure LogLine where
  level : LogLevel
  text : String
deriving DecidableEq

/-- The line that lists some values, with a comma between each two. -/
def LogLine.ofValues (level : LogLevel) (values : List String) : LogLine :=
  ⟨level, ", ".intercalate values⟩

end ImpliedFinality
