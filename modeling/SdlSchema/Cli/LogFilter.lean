import SdlSchema.Cli.Numeral
import SdlSchema.Event
import SdlSchema.WhiteSpace

/-!
# Which events are logged

A filter has a level for all events and directives for some.  A directive names
the start of a target, a field that an event must carry, or both; of several
directives that apply to an event the most specific one counts.

The directives come from the variable `RUST_LOG`, which separates them by
commas:

    target[{field}]=level

Target and brackets can be left out, but not both; without a level everything
is logged.  Directives that cannot be read are passed over, and so are those
that apply to no event: levels alone, since the configuration gives one, and
what goes by the values of fields or by the surroundings of an event.
-/

namespace SdlSchema.Cli

/-- The least severe level that is logged, if any is. -/
abbrev Threshold := Option Level

namespace Threshold

def admits (t : Threshold) (level : Level) : Bool := t.any fun least => least.rank ≤ level.rank

/-- The threshold with a number, from 0 for none to 5 for all. -/
def ofNat? : Nat → Option Threshold
  | 0 => some none
  | 1 => some (some .error)
  | 2 => some (some .warn)
  | 3 => some (some .info)
  | 4 => some (some .debug)
  | 5 => some (some .trace)
  | _ => none

/-- A level by its name in any case or by its number. -/
def ofText? (cs : List Char) : Option Threshold :=
  let s := String.ofList (cs.map Char.toLower)
  if s = "off" then some none
  else match Level.ofName? s with
    | some level => some (some level)
    | none => (Numeral.natural? 64 cs).bind ofNat?

/-- As `ofText?`, where nothing stands for all levels. -/
def ofOptional? (cs : List Char) : Option Threshold :=
  if cs.isEmpty then some (some .trace) else ofText? cs

end Threshold

/-- A threshold for the events whose target starts with a text and that carry a field. -/
structure Directive where
  target : List Char
  field? : Option String
  threshold : Threshold
  deriving DecidableEq

namespace Directive

/-- The directive applies to an event. -/
def covers (d : Directive) (e : Event) : Bool :=
  d.target.isPrefixOf e.target.toList && d.field?.all fun f => e.fields.contains f

/-- A directive is more specific than others with a shorter target.  With equal targets it is if it
alone names a field, or if its field comes later in the alphabet. -/
def lessSpecific (a b : Directive) : Bool :=
  if a.target.length = b.target.length then
    match a.field?, b.field? with
    | none, some _ => true
    | some f, some g => f < g
    | _, none => false
  else a.target.length < b.target.length

/-! ## Reading -/

def isStart (c : Char) : Bool := c.isAlphanum || c = '-' || c = ':' || c = '_'

/-- What follows the closing bracket: a level after an equals sign, or nothing but white space. -/
def levelAfter? (cs : List Char) : Option Threshold :=
  match cs with
  | '=' :: level => Threshold.ofOptional? level
  | _ => if cs.all WhiteSpace.holds then some (some .trace) else none

/-- The rest of a directive from its opening bracket on. -/
def ofBrackets? (target : List Char) : List Char → Option Directive
  | '[' :: '{' :: cs =>
    let field := cs.takeWhile (· ≠ '}')
    match cs.dropWhile (· ≠ '}') with
    | '}' :: ']' :: cs =>
      if field.isEmpty || field.contains '=' then none
      else (levelAfter? cs).map fun t => ⟨target, some (String.ofList field), t⟩
    | _ => none
  | _ => none

def ofText? (cs : List Char) : Option Directive :=
  let target := cs.takeWhile fun c => c ≠ '=' && c ≠ '['
  if target.head?.all isStart then
    match cs.dropWhile fun c => c ≠ '=' && c ≠ '[' with
    | [] =>
      if target.isEmpty || (Threshold.ofText? target).isSome then none
      else some ⟨target, none, some .trace⟩
    | '=' :: level =>
      if target.isEmpty then none
      else (Threshold.ofOptional? level).map fun t => ⟨target, none, t⟩
    | rest => ofBrackets? target rest
  else none

end Directive

/-- The threshold of all events without a directive, and the directives. -/
structure LogFilter where
  threshold : Threshold
  directives : List Directive

namespace LogFilter

/-- The filter for a level and the value of the variable, if it is set. -/
def ofVariable (level : Level) (setting? : Option String) : LogFilter :=
  ⟨some level, ((setting?.getD "").toList.splitOn ',').filterMap Directive.ofText?⟩

/-- The most specific directive that covers an event; of equally specific ones the last. -/
def directive? (f : LogFilter) (e : Event) : Option Directive :=
  (f.directives.filter fun d => d.covers e).foldl (fun best? d =>
    match best? with
    | some best => if d.lessSpecific best then some best else some d
    | none => some d) none

/-- The event is logged. -/
def admits (f : LogFilter) (e : Event) : Bool :=
  (((f.directive? e).map Directive.threshold).getD f.threshold).admits e.level

end LogFilter

end SdlSchema.Cli
