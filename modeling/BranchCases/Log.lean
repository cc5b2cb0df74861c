import BranchCases.Named

/-
Records of what the generator did, by severity.
-/
namespace BranchCases

/-- Severities, the gravest first. -/
inductive Level where
  | error | warn | info | debug | trace
  deriving DecidableEq

instance : Named Level where
  all := [.error, .warn, .info, .debug, .trace]
  name
    | .error => "error"
    | .warn => "warn"
    | .info => "info"
    | .debug => "debug"
    | .trace => "trace"

def Level.rank : Level → Nat
  | .error => 0
  | .warn => 1
  | .info => 2
  | .debug => 3
  | .trace => 4

/-- A threshold admits its own severity and all graver ones. -/
def Level.admits (threshold level : Level) : Bool :=
  level.rank ≤ threshold.rank

def Level.label : Level → String
  | .error => "ERROR"
  | .warn => "WARN"
  | .info => "INFO"
  | .debug => "DEBUG"
  | .trace => "TRACE"

/-- The label at the right end of a column of five. -/
def Level.column (level : Level) : String :=
  "".pushn ' ' (5 - level.label.length) ++ level.label

/-- A named detail of a record. Words of a fixed vocabulary are quoted in a line of the log,
messages and numbers are not. -/
structure Field where
  name : String
  text : String
  quoted : Bool := false
  deriving DecidableEq

def Field.line (field : Field) : String :=
  field.name ++ "=" ++ if field.quoted then "\"" ++ field.text ++ "\"" else field.text

/-- Something that happened. -/
structure Event where
  level : Level
  target : String
  message : String
  fields : List Field
  deriving DecidableEq

/-- A piece of work in the course of which events happen. -/
structure Span where
  level : Level
  target : String
  name : String
  fields : List Field
  deriving DecidableEq

/-- An entry of the log. -/
inductive Record where
  | entered (span : Span)
  | event (within : Option Span) (event : Event)
  deriving DecidableEq

def Record.level : Record → Level
  | .entered span => span.level
  | .event _ e => e.level

/-- The records that a threshold admits, in order. -/
def admitted (threshold : Level) (records : List Record) : List Record :=
  records.filter fun record => threshold.admits record.level

/-- The span in front of an event's line; empty where the threshold hides the span. -/
def Span.line (threshold : Level) (span : Span) : String :=
  if threshold.admits span.level then
    span.name ++ "\x7b" ++ " ".intercalate (span.fields.map Field.line) ++ "\x7d: "
  else
    ""

/-- The line of an event: severity, span, target, message and fields. -/
def Event.line (threshold : Level) (within : Option Span) (event : Event) : String :=
  event.level.column ++ " " ++ (within.map (Span.line threshold)).getD "" ++
    event.target ++ ": " ++ event.message ++
    String.join (event.fields.map fun field => " " ++ field.line)

/-- The written log at a threshold, a line for each event; entering a span has no line. -/
def logLines (threshold : Level) (records : List Record) : List String :=
  (admitted threshold records).filterMap fun
    | .entered _ => none
    | .event within e => some (e.line threshold within)

end BranchCases
