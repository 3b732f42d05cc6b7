import SdlSchema.Json.Value

/-!
# The schema of the configuration

A JSON Schema, draft 2020-12, that describes configuration files.
-/

namespace SdlSchema.Cli.ConfigSchema

/-! ## Building blocks -/

def described (description : String) (members : List (String × Json)) : Json :=
  .object (("description", .string description) :: members)

def sectionOf (description : String) (properties : List (String × Json)) : Json :=
  described description [("type", .string "object"), ("properties", .object properties)]

def reference (name : String) : String × Json := ("$ref", .string ("#/$defs/" ++ name))

/-- A path that may be missing. -/
def optionalPath (description : String) : Json :=
  described description
    [("type", .array [.string "string", .string "null"]), ("default", .null)]

/-- One of the named values of a setting. -/
def choice (description name : String) : Json :=
  described description [("type", .string "string"), ("const", .string name)]

/-! ## The definitions -/

def logLevel : Json :=
  described "Log level" [("type", .string "string"),
    ("enum", .array (["trace", "debug", "info", "warn", "error"].map .string))]

def logging : Json :=
  sectionOf "Logging related options" [
    ("level", described "The log level to use for tracing" [reference "LogLevel"]),
    ("path", optionalPath "Directory to write the log file to, stderr when absent")]

def mode : Json :=
  described "Output variant of the transform" [("oneOf", .array [
    choice ("JSON Schema draft-04, annotated with GraphQL metadata " ++
      "(inline \x60required\x60 flags,\nfield arguments, scalar and input markers)") "relaxed",
    choice "JSON Schema draft-07 with no GraphQL-specific keywords" "strict"])]

def output : Json :=
  sectionOf "Output options" [
    ("path", optionalPath "File to write the JSON Schema to, stdout when absent"),
    ("pretty", described "Pretty-print the JSON Schema"
      [("type", .string "boolean"), ("default", .bool true)])]

/-! ## The schema -/

def properties : List (String × Json) := [
  ("mode", described
    ("The output variant: \x60relaxed\x60 targets draft-04 and keeps GraphQL metadata, " ++
      "\x60strict\x60\ntargets draft-07")
    [reference "Mode", ("default", .string "relaxed")]),
  ("logging", described "Logging configuration" [reference "Logging"]),
  ("output", described "Where and how to write the generated schema" [reference "Output"])]

def schema : Json := .object [
  ("$schema", .string "https://json-schema.org/draft/2020-12/schema"),
  ("title", .string "Config"),
  ("description", .string "Configuration for the converter"),
  ("type", .string "object"),
  ("properties", .object properties),
  ("$defs", .object [
    ("LogLevel", logLevel),
    ("Logging", logging),
    ("Mode", mode),
    ("Output", output)])]

end SdlSchema.Cli.ConfigSchema
