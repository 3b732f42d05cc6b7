import SdlSchema.Mode

/-!
# Events

What happens in a run, as it can be logged.  Each event has a severity, a
target, which is the part of the program that reports it, and named fields.
-/

namespace SdlSchema

/-- Severities, from the one that tells most to the one that tells least. -/
inductive Level where
  | trace
  | debug
  | info
  | warn
  | error
  deriving DecidableEq, Repr, Inhabited

namespace Level

def rank : Level → Nat
  | trace => 0
  | debug => 1
  | info => 2
  | warn => 3
  | error => 4

def name : Level → String
  | trace => "trace"
  | debug => "debug"
  | info => "info"
  | warn => "warn"
  | error => "error"

/-- The level with a name, which is lower case. -/
def ofName? : String → Option Level
  | "trace" => some trace
  | "debug" => some debug
  | "info" => some info
  | "warn" => some warn
  | "error" => some error
  | _ => none

@[simp] theorem ofName?_name (l : Level) : ofName? l.name = some l := by cases l <;> rfl

/-- The name in a log line. -/
def label : Level → String
  | trace => "TRACE"
  | debug => "DEBUG"
  | info => "INFO"
  | warn => "WARN"
  | error => "ERROR"

end Level

/-- What can be logged, with what its log line tells. -/
inductive Event where
  /-- The program has read its configuration. -/
  | started (mode : Mode)
  /-- A document of so many definitions is going to be converted. -/
  | converting (definitions : Nat) (mode : Mode)
  /-- A definition has been converted. -/
  | mapped (title : String)
  /-- A definition has taken the place of an earlier one. -/
  | replaced (title : String)
  /-- A document of so many schema definitions is ready. -/
  | finished (definitions : Nat)
  deriving DecidableEq, Repr

namespace Event

/-- The severity of an event. -/
def level : Event → Level
  | started _ => .debug
  | converting _ _ => .debug
  | mapped _ => .trace
  | replaced _ => .debug
  | finished _ => .info

/-- The part of the program that reports an event; filters go by it. -/
def target : Event → String
  | started _ => "gql2jsonschema"
  | converting _ _ => "graphql_json_schema::transform"
  | mapped _ => "graphql_json_schema::walker::definition"
  | replaced _ => "graphql_json_schema::transform"
  | finished _ => "gql2jsonschema"

/-- The names of what an event carries: its text, and the named values in it. -/
def fields : Event → List String
  | started _ => ["message"]
  | converting _ _ => ["message", "definitions", "strict"]
  | mapped _ => ["message", "title"]
  | replaced _ => ["message", "title"]
  | finished _ => ["message"]

def version : String := "0.1.0"

/-- The mode as it is written in the first log line. -/
def modeLabel : Mode → String
  | .relaxed => "Relaxed"
  | .strict => "Strict"

/-- The text of a log line, with named values at its end. -/
def message : Event → String
  | started mode => "gql2jsonschema v" ++ version ++ " // mode: " ++ modeLabel mode
  | converting n mode =>
    "Transforming GraphQL document definitions=" ++ toString n ++
      " strict=" ++ toString mode.isStrict
  | mapped title => "Translated definition title=\"" ++ title ++ "\""
  | replaced title => "Replaced definition with a duplicate title title=\"" ++ title ++ "\""
  | finished n => "Converted " ++ toString n ++ " definitions into JSON Schema"

end Event

end SdlSchema
