/-!
# Log records

What a compilation tells about its progress, besides its result.
-/

namespace PegScript

inductive LogLevel where
  | trace
  | debug
  | warn
deriving DecidableEq, Repr

def LogLevel.label : LogLevel → String
  | trace => "TRACE"
  | debug => "DEBUG"
  | warn => "WARN"

structure LogRecord where
  level : LogLevel
  message : String
deriving DecidableEq, Repr

/-- The level and the message. -/
def LogRecord.render (r : LogRecord) : String :=
  r.level.label ++ " " ++ r.message

end PegScript
