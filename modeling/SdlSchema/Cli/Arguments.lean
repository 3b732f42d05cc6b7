import SdlSchema.Event

/-!
# Command line arguments

Short options are single letters after one hyphen and can be bundled; long
options have a name after two.  The value of an option is the rest of its
argument, after an equals sign if there is one, or else the next argument,
which must not look like an option.  Everything after `--` is positional, and
so is a single hyphen.

The arguments are read from left to right; all that has to be remembered
between two of them is which option still waits for its value.
-/

namespace SdlSchema.Cli

/-- What a command line asks for. -/
structure Arguments where
  schema? : Option String := none
  config? : Option String := none
  strict : Bool := false
  relaxed : Bool := false
  output? : Option String := none
  compact : Bool := false
  level? : Option Level := none
  deriving DecidableEq, Inhabited

/-- Why a command line is not run. -/
inductive Refusal where
  /-- The arguments are not understood. -/
  | usage
  /-- The arguments ask for help. -/
  | help
  deriving DecidableEq

/-- Options without a value. -/
inductive Flag where
  | strict
  | relaxed
  | compact
  deriving DecidableEq

/-- Options with a value. -/
inductive Setter where
  | config
  | output
  | log
  deriving DecidableEq

/-- The options. -/
inductive Choice where
  | flag (f : Flag)
  | setter (s : Setter)
  | help
  deriving DecidableEq

namespace Choice

def ofLetter? : Char → Option Choice
  | 's' => some (flag .strict)
  | 'r' => some (flag .relaxed)
  | 'c' => some (setter .config)
  | 'o' => some (setter .output)
  | 'l' => some (setter .log)
  | 'h' => some help
  | _ => none

def ofName? (name : List Char) : Option Choice :=
  if name = "strict".toList then some (flag .strict)
  else if name = "relaxed".toList then some (flag .relaxed)
  else if name = "compact".toList then some (flag .compact)
  else if name = "config".toList then some (setter .config)
  else if name = "output".toList then some (setter .output)
  else if name = "log".toList then some (setter .log)
  else if name = "help".toList then some help
  else none

end Choice

/-! ## Setting an option

An option can be given once. -/

namespace Flag

def apply (f : Flag) (a : Arguments) : Except Refusal Arguments :=
  match f with
  | strict => if a.strict then .error .usage else .ok { a with strict := true }
  | relaxed => if a.relaxed then .error .usage else .ok { a with relaxed := true }
  | compact => if a.compact then .error .usage else .ok { a with compact := true }

end Flag

/-- Gives a value to what has none yet. -/
def fill {α : Type} (old? : Option α) (value? : Option α) : Except Refusal (Option α) :=
  match old?, value? with
  | none, some v => .ok (some v)
  | _, _ => .error .usage

/-- A path, which must not be empty. -/
def path? (value : List Char) : Option String :=
  if value.isEmpty then none else some (String.ofList value)

namespace Setter

def apply (s : Setter) (value : List Char) (a : Arguments) : Except Refusal Arguments :=
  match s with
  | config => (fill a.config? (path? value)).map fun v => { a with config? := v }
  | output => (fill a.output? (path? value)).map fun v => { a with output? := v }
  | log =>
    (fill a.level? (Level.ofName? (String.ofList value))).map fun v => { a with level? := v }

end Setter

namespace Arguments

def addPositional (value : List Char) (a : Arguments) : Except Refusal Arguments :=
  (fill a.schema? (path? value)).map fun v => { a with schema? := v }

/-! ## Reading -/

/-- An option that waits for its value. -/
abbrev Pending := Option Setter

/-- The letters of a bundle.  An option with a value takes all that is left of the bundle. -/
def readLetters : List Char → Arguments → Except Refusal (Arguments × Pending)
  | [], a => .ok (a, none)
  | c :: cs, a =>
    match Choice.ofLetter? c with
    | some (.flag f) => do readLetters cs (← f.apply a)
    | some (.setter s) =>
      match cs with
      | [] => .ok (a, some s)
      | '=' :: value => do pure (← s.apply value a, none)
      | value => do pure (← s.apply value a, none)
    | some .help => .error .help
    | none => .error .usage

/-- A long option, without its hyphens. -/
def readLong (text : List Char) (a : Arguments) : Except Refusal (Arguments × Pending) :=
  let name := text.takeWhile (· ≠ '=')
  match Choice.ofName? name, text.dropWhile (· ≠ '=') with
  | some (.flag f), [] => do pure (← f.apply a, none)
  | some (.setter s), [] => .ok (a, some s)
  | some (.setter s), _ :: value => do pure (← s.apply value a, none)
  | some .help, [] => .error .help
  | _, _ => .error .usage

/-- Only positional arguments are left. -/
def readPositionals : List (List Char) → Arguments → Except Refusal Arguments
  | [], a => .ok a
  | arg :: args, a => do readPositionals args (← a.addPositional arg)

/-- Begins with a hyphen and is not just that. -/
def looksLikeOption : List Char → Bool
  | '-' :: _ :: _ => true
  | _ => false

/-- Reads arguments, of which the first may be the value that an option waits for. -/
def readArguments : Pending → List (List Char) → Arguments → Except Refusal Arguments
  | none, [], a => .ok a
  | some _, [], _ => .error .usage
  | some s, arg :: args, a =>
    if looksLikeOption arg then .error .usage
    else do readArguments none args (← s.apply arg a)
  | none, arg :: args, a =>
    match arg with
    | ['-', '-'] => readPositionals args a
    | '-' :: '-' :: text => do
      let (a, pending) ← readLong text a
      readArguments pending args a
    | '-' :: c :: cs => do
      let (a, pending) ← readLetters (c :: cs) a
      readArguments pending args a
    | _ => do readArguments none args (← a.addPositional arg)

/-- Reads the arguments of a command line; the two modes exclude each other. -/
def read (args : List String) : Except Refusal Arguments := do
  let a ← readArguments none (args.map String.toList) {}
  if a.strict && a.relaxed then .error .usage else .ok a

end Arguments

end SdlSchema.Cli
