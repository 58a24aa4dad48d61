import FlatXor.Settings

/-!
# The command line

Arguments are read from the left. Options may stand before the command, and after it
among its own; two of them are known everywhere. The value of an option is part of the
same argument or is the next one, which must then not look like an option. It is
checked when the argument after it is recognized. A request for help or for the
version ends the reading at once, unless something wrong has been found before it.
-/
namespace FlatXor

/-- What is wrong with a command line. -/
inductive UsageError where
  | unknownOption (text : String)
  | unexpectedValue (text : String)
  | missingValue (label : String)
  | invalidValue (label text : String)
  | repeatedOption (label : String)
  | unexpectedArgument (text : String)
  | missingArguments
  | unknownCommand (text : String)
  | missingCommand
  deriving Repr, DecidableEq

namespace UsageError

def message : UsageError → String
  | unknownOption text => s!"unknown option '{text}'"
  | unexpectedValue text => s!"option without a value in '{text}'"
  | missingValue label => s!"a value is required for '{label}'"
  | invalidValue label text => s!"invalid value '{text}' for '{label}'"
  | repeatedOption label => s!"'{label}' cannot be used more than once"
  | unexpectedArgument text => s!"unexpected argument '{text}'"
  | missingArguments => "required arguments were not given"
  | unknownCommand text => s!"unknown command '{text}'"
  | missingCommand => "a command is required"

end UsageError

/-- Where on the command line an argument stands. -/
inductive Level where
  /-- Before the command. -/
  | outer
  /-- After the command that writes a code family. -/
  | codes
  /-- After the command that writes a failure table. -/
  | failures
  deriving Repr, DecidableEq

inductive CommandOption where
  | config
  | logLevel
  | help
  | version
  | format
  | static
  | index
  | maxSteps
  | noOscillationCheck
  deriving Repr, DecidableEq

namespace CommandOption

def word : CommandOption → String
  | config => "config"
  | logLevel => "log-level"
  | help => "help"
  | version => "version"
  | format => "format"
  | static => "static"
  | index => "index"
  | maxSteps => "max-steps"
  | noOscillationCheck => "no-oscillation-check"

def letter? : CommandOption → Option Char
  | config => some 'c'
  | help => some 'h'
  | version => some 'V'
  | format => some 'f'
  | _ => none

def takesValue : CommandOption → Bool
  | config => true
  | logLevel => true
  | format => true
  | maxSteps => true
  | _ => false

/-- The name in messages. -/
def label (o : CommandOption) : String := "--" ++ o.word

end CommandOption

namespace Level

/-- The options that are known at a level. -/
def options : Level → List CommandOption
  | outer => [.config, .logLevel, .help, .version]
  | codes => [.config, .logLevel, .help, .format, .static, .index, .maxSteps, .noOscillationCheck]
  | failures => [.config, .logLevel, .help]

/-- The number of arguments that are not options. -/
def numbers : Level → Nat
  | outer => 0
  | codes => 2
  | failures => 2

def ofCommand? : String → Option Level
  | "codes" => some codes
  | "failure-combs" => some failures
  | _ => none

end Level

/-- The number that an argument denotes. It may have a plus sign and leading zeros, and
has to fit a word. -/
def wordNumber? (text : String) : Option Nat :=
  let digits := match text.toList with
    | '+' :: rest => rest
    | cs => cs
  (decimalNumber? digits).filter (· < UInt64.size)

/-- What has been given at one level. -/
structure Given where
  config : Option String
  logLevel : Option String
  format : Option OutputFormat
  static : Bool
  index : Bool
  maxSteps : Option Nat
  noOscillationCheck : Bool
  /-- The arguments that are not options. -/
  numbers : List Nat
  deriving Repr, DecidableEq

/-- An argument whose value is awaited or still to be checked. -/
inductive Pending where
  | option (o : CommandOption) (value : Option String)
  | number (text : String)
  deriving Repr, DecidableEq

/-- Why the reading of a command line ends without an invocation. -/
inductive Stop where
  | help
  | version
  | wrong (e : UsageError)
  deriving Repr, DecidableEq

namespace Given

def nothing : Given := ⟨none, none, none, false, false, none, false, []⟩

/-- Has the option been given? -/
def has (g : Given) : CommandOption → Bool
  | .config => g.config.isSome
  | .logLevel => g.logLevel.isSome
  | .format => g.format.isSome
  | .static => g.static
  | .index => g.index
  | .maxSteps => g.maxSteps.isSome
  | .noOscillationCheck => g.noOscillationCheck
  | .help => false
  | .version => false

/-- Takes in the value of an option. -/
def setValue? (g : Given) (text : String) : CommandOption → Option Given
  | .config => if text.isEmpty then none else some { g with config := some text }
  | .logLevel => some { g with logLevel := some text }
  | .format => (OutputFormat.ofWord? text).map fun format => { g with format := some format }
  | .maxSteps => (wordNumber? text).map fun n => { g with maxSteps := some n }
  | _ => none

/-- Takes in an option with its value. -/
def giveValue (g : Given) (o : CommandOption) (text : String) : Except UsageError Given :=
  if g.has o then .error (.repeatedOption o.label)
  else
    match g.setValue? text o with
    | some g => .ok g
    | none => .error (.invalidValue o.label text)

/-- Takes in an option without value. -/
def giveFlag (g : Given) (o : CommandOption) : Except Stop Given :=
  if g.has o then .error (.wrong (.repeatedOption o.label))
  else
    match o with
    | .help => .error .help
    | .version => .error .version
    | .static => .ok { g with static := true }
    | .index => .ok { g with index := true }
    | .noOscillationCheck => .ok { g with noOscillationCheck := true }
    | o => .error (.wrong (.missingValue o.label))

/-- Takes in an argument that is not an option. -/
def giveNumber (g : Given) (text : String) : Except UsageError Given :=
  match wordNumber? text with
  | some n => .ok { g with numbers := g.numbers ++ [n] }
  | none => .error (.invalidValue "number" text)

/-- Takes in what is pending. -/
def settle (g : Given) : Option Pending → Except Stop Given
  | none => .ok g
  | some (.option o none) => .error (.wrong (.missingValue o.label))
  | some (.option o (some text)) => (g.giveValue o text).mapError .wrong
  | some (.number text) => (g.giveNumber text).mapError .wrong

end Given

/-- A level of which some arguments have been read. -/
structure Reading where
  level : Level
  given : Given
  pending : Option Pending
  /-- The number of arguments so far that are not options. -/
  numbers : Nat
  deriving Repr, DecidableEq

namespace Reading

def start (level : Level) : Reading := ⟨level, .nothing, none, 0⟩

/-- Takes in what is pending. -/
def settle (r : Reading) : Except Stop Reading :=
  (r.given.settle r.pending).map fun given => { r with given, pending := none }

/-- Is the value of an option awaited? -/
def awaits (r : Reading) : Option CommandOption :=
  match r.pending with
  | some (.option o none) => some o
  | _ => none

/-- An option with a value in the same argument. The value is checked at once. -/
def attached (r : Reading) (o : CommandOption) (text : String) : Except Stop Reading := do
  let r ← r.settle
  let given ← (r.given.giveValue o text).mapError .wrong
  return { r with given }

/-- An option alone in its argument. If it takes a value, that is awaited. -/
def alone (r : Reading) (o : CommandOption) : Except Stop Reading := do
  let r ← r.settle
  if o.takesValue then return { r with pending := some (.option o none) }
  else return { r with given := ← r.given.giveFlag o }

/-- An argument that is not an option. -/
def number (r : Reading) (text : String) : Except Stop Reading :=
  if r.level.numbers ≤ r.numbers then .error (.wrong (.unexpectedArgument text))
  else do
    let r ← r.settle
    return { r with pending := some (.number text), numbers := r.numbers + 1 }

/-- An option that is given by its word, after the two hyphens. -/
def byWord (r : Reading) (text : List Char) : Except Stop Reading :=
  let (word, rest) := text.span (· != '=')
  match r.level.options.find? (·.word.toList == word), rest with
  | none, _ => .error (.wrong (.unknownOption (String.ofList text)))
  | some o, [] => r.alone o
  | some o, _ :: value =>
    if o.takesValue then r.attached o (String.ofList value)
    else .error (.wrong (.unexpectedValue (String.ofList text)))

/-- Options that are given by letters, after one hyphen. What follows the letter of an
option with a value is its value, and an equals sign may stand between. -/
def byLetters (r : Reading) : List Char → Except Stop Reading
  | [] => .ok r
  | c :: rest =>
    match r.level.options.find? (·.letter? == some c) with
    | none => .error (.wrong (.unknownOption (String.singleton c)))
    | some o =>
      if o.takesValue then
        match rest with
        | [] => r.alone o
        | '=' :: value => r.attached o (String.ofList value)
        | value => r.attached o (String.ofList value)
      else
        match r.alone o with
        | .ok r => r.byLetters rest
        | .error e => .error e

/-- One argument, when no value is awaited or the argument looks like an option. -/
def argument (r : Reading) (text : String) : Except Stop Reading :=
  match text.toList with
  | '-' :: '-' :: rest => r.byWord rest
  | '-' :: c :: rest => r.byLetters (c :: rest)
  | _ =>
    match r.awaits with
    | some o => .ok { r with pending := some (.option o (some text)) }
    | none => r.number text

/-- The arguments behind two hyphens, none of which is an option. -/
def numbersOnly (r : Reading) : List String → Except Stop Reading
  | [] => .ok r
  | text :: args =>
    match r.number text with
    | .ok r => r.numbersOnly args
    | .error e => .error e

/-- The arguments of a command. -/
def arguments (r : Reading) : List String → Except Stop Reading
  | [] => .ok r
  | "--" :: args => r.numbersOnly args
  | text :: args =>
    match r.argument text with
    | .ok r => r.arguments args
    | .error e => .error e

end Reading

/-- A request for a code family. What is absent is left to the settings. -/
structure CodesRequest where
  parities : Nat
  arity : Nat
  format : Option OutputFormat
  /-- Whether static declarations are asked for. -/
  static : Bool
  /-- Whether the index arrays are asked for. -/
  index : Bool
  maxSteps : Option Nat
  /-- Whether oscillation is not to be watched for. -/
  noOscillationCheck : Bool
  deriving Repr, DecidableEq

inductive Command where
  | codes (request : CodesRequest)
  | failures (fragments depth : Nat)
  deriving Repr, DecidableEq

structure Invocation where
  /-- The path of the settings file. -/
  config : Option String
  logLevel : Option String
  command : Command
  deriving Repr, DecidableEq

namespace Invocation

/-- The name of the environment variable for the step limit. -/
def maxStepsVariable : String := "GOLDILOCKS_MAX_STEPS"

/-- The step limit that is asked for. The text of the environment variable is looked at
only when the option is absent. -/
def stepLimit (g : Given) (fallback : Option String) : Except UsageError (Option Nat) :=
  match g.maxSteps, fallback with
  | some n, _ => .ok (some n)
  | none, none => .ok none
  | none, some text =>
    match wordNumber? text with
    | some n => .ok (some n)
    | none => .error (.invalidValue CommandOption.maxSteps.label text)

/-- The command that is asked for at a level. -/
def commandOf (level : Level) (g : Given) (fallback : Option String) :
    Except UsageError Command :=
  match level, g.numbers with
  | .codes, numbers =>
    match stepLimit g fallback, numbers with
    | .error e, _ => .error e
    | .ok maxSteps, [parities, arity] =>
      .ok (.codes
        ⟨parities, arity, g.format, g.static, g.index, maxSteps, g.noOscillationCheck⟩)
    | .ok _, _ => .error .missingArguments
  | .failures, [fragments, depth] => .ok (.failures fragments depth)
  | .failures, _ => .error .missingArguments
  | .outer, _ => .error .missingCommand

/-- The arguments of a command, behind what has been read before it. What is pending
there is taken in last. -/
def ofCommand (r : Reading) (level : Level) (args : List String) (fallback : Option String) :
    Except Stop Invocation := do
  let inner ← (Reading.start level).arguments args
  let inner := (← inner.settle).given
  let command ← (commandOf level inner fallback).mapError .wrong
  let outer := (← r.settle).given
  return ⟨inner.config.or outer.config, inner.logLevel.or outer.logLevel, command⟩

/-- The arguments of a request for help, which names a command or nothing. -/
def ofHelp : List String → Stop
  | [] => .help
  | [text] =>
    if text == "help" || (Level.ofCommand? text).isSome then .help
    else .wrong (.unknownCommand text)
  | _ :: text :: _ => .wrong (.unknownCommand text)

/-- The arguments up to the command, and those of the command. -/
def readOuter (fallback : Option String) (r : Reading) : List String → Except Stop Invocation
  | [] => do
    let _ ← r.settle
    .error (.wrong .missingCommand)
  | "--" :: _ => .error (.wrong .missingCommand)
  | text :: args =>
    match r.awaits, text == "help", Level.ofCommand? text with
    | none, true, _ => .error (ofHelp args)
    | none, false, some level => ofCommand r level args fallback
    | _, _, _ =>
      match r.argument text with
      | .ok r => readOuter fallback r args
      | .error e => .error e

/-- The invocation that a command line asks for. The text of the environment variable
for the step limit stands in when the option is absent. -/
def parse (args : List String) (fallback : Option String) : Except Stop Invocation :=
  readOuter fallback (.start .outer) args

end Invocation

end FlatXor
