/-!
# What a context logs

Every record has a level. A context has a verbosity, and emits the records of
the levels that it enables; nothing else depends on the verbosity.
-/

namespace LatticeSuite

/-- The level of a record. -/
inductive LogLevel where
  | error | warn | info | debug | trace
  deriving DecidableEq, Repr

def LogLevel.name : LogLevel → String
  | .error => "ERROR"
  | .warn => "WARN"
  | .info => "INFO"
  | .debug => "DEBUG"
  | .trace => "TRACE"

/-- Every level, the gravest first. -/
def LogLevel.all : List LogLevel := [.error, .warn, .info, .debug, .trace]

structure LogRecord where
  level : LogLevel
  /-- The text, without the place that the record of a failure ends in. -/
  message : String
  deriving DecidableEq, Repr

/-- How much a context logs; each verbosity includes those before it. -/
inductive DebugLevel where
  | none | error | warning | info | debug
  deriving DecidableEq, Repr, Inhabited

namespace DebugLevel

def label : DebugLevel → String
  | .none => "None"
  | .error => "Error"
  | .warning => "Warning"
  | .info => "Info"
  | .debug => "Debug"

/-- Every verbosity, the quietest first. -/
def all : List DebugLevel := [.none, .error, .warning, .info, .debug]

/-- Whether records of a level are emitted. -/
def enables : DebugLevel → LogLevel → Bool
  | .none, _ => false
  | .error, .error => true
  | .error, _ => false
  | .warning, .error | .warning, .warn => true
  | .warning, _ => false
  | .info, .debug | .info, .trace => false
  | .info, _ => true
  | .debug, _ => true

/-- A record, if its level is enabled. -/
def emit (d : DebugLevel) (level : LogLevel) (message : String) : List LogRecord :=
  if d.enables level then [{ level, message }] else []

end DebugLevel

end LatticeSuite
