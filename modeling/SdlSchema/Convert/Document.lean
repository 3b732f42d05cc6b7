import SdlSchema.Convert.Definition
import SdlSchema.Event
import SdlSchema.Sdl.Document

/-!
# The schema of a document

The definitions are converted in order and inserted under their names, so that
a later definition takes the place of an earlier one of its name.  Directive
definitions are passed over; the first definition without a counterpart ends
the conversion.  What happens is reported along with the result.
-/

namespace SdlSchema

/-- A result with the events that led to it. -/
structure Reported (α : Type) where
  events : List Event
  result : Except Error α

namespace Sdl

/-- The event of inserting under a name that is taken already. -/
def replacement (definitions : Table Schema.Definition) (title : String) : List Event :=
  match definitions.get? title with
  | some old => [.replaced old.title]
  | none => []

/-- Inserts the schemas of further definitions. -/
def collect (mode : Mode) (definitions : Table Schema.Definition) :
    List Definition → Reported (Table Schema.Definition)
  | [] => ⟨[], .ok definitions⟩
  | d :: ds =>
    if d.isDirective then collect mode definitions ds
    else match d.toSchema mode with
      | .error e => ⟨[], .error e⟩
      | .ok s =>
        let more := collect mode (definitions.insert s.title s) ds
        ⟨.mapped s.title :: (replacement definitions s.title ++ more.events), more.result⟩

/-- Converts a document and reports it. -/
def convertReported (mode : Mode) (definitions : List Definition) : Reported Schema.Document :=
  let collected := collect mode .empty definitions
  ⟨.converting definitions.length mode :: collected.events,
    collected.result.map fun table => ⟨mode.schemaUri, table⟩⟩

/-- The schema of a document. -/
def convert (mode : Mode) (definitions : List Definition) : Except Error Schema.Document :=
  (convertReported mode definitions).result

end Sdl

/-! ## Source texts -/

/-- Converts a source text and reports it. -/
def convertSourceReported (mode : Mode) (source : String) : Reported Schema.Document :=
  match Sdl.ofText? source with
  | none => ⟨[], .error .unparsable⟩
  | some definitions => Sdl.convertReported mode definitions

/-- The schema of a source text. -/
def convertSource (mode : Mode) (source : String) : Except Error Schema.Document :=
  (convertSourceReported mode source).result

/-- Converts a source text that is given as a JSON string. -/
def convertJson (mode : Mode) : Json → Except Error Schema.Document
  | .string source => convertSource mode source
  | .null => .error (.notText .null)
  | .bool _ => .error (.notText .boolean)
  | .number _ => .error (.notText .number)
  | .array _ => .error (.notText .array)
  | .object _ => .error (.notText .object)

end SdlSchema
