import BranchCases.Pattern.Reader
import BranchCases.Generation

/-
The arguments of the command line: one suite, and options that may stand before or after it.
Search patterns are read by whatever reader is given.
-/
namespace BranchCases.CommandLine

/-- The options that take a value. -/
inductive ValueOption where
  | format | grep
  deriving DecidableEq

/-- The two lengths of the help text. -/
inductive HelpLength where
  | short | long
  deriving DecidableEq

/-- Why arguments are not understood. -/
inductive UsageError where
  | unknownOption (argument : String)
  | unexpectedValue (argument : String)
  | missingValue (option : ValueOption)
  | repeatedOption (option : ValueOption)
  | badFormat (value : UnknownName)
  | badPattern (cause : PatternError)
  | badSuite (value : UnknownName)
  | extraArgument (argument : String)
  | missingSuite
  deriving DecidableEq

def ValueOption.name : ValueOption → String
  | .format => "--format"
  | .grep => "--grep"

def UsageError.message : UsageError → String
  | .unknownOption argument => "unknown option: " ++ argument
  | .unexpectedValue argument => "the option takes no value: " ++ argument
  | .missingValue option => "the option needs a value: " ++ option.name
  | .repeatedOption option => "the option is given twice: " ++ option.name
  | .badFormat value => "bad value of --format: " ++ value.message
  | .badPattern cause => "bad value of --grep: " ++ cause.message
  | .badSuite value => "bad suite: " ++ value.message
  | .extraArgument argument => "one argument too many: " ++ argument
  | .missingSuite => "the suite is missing"

/-- What a command line asks for. -/
inductive Command where
  | help (length : HelpLength)
  | generate (suite : Suite) (format : Format) (grep : Option (String → Bool))

/-- What the arguments so far have settled. -/
structure Settled where
  suite : Option Suite := none
  format : Option Format := none
  grep : Option (String → Bool) := none

/-- Settle an option that takes a value. -/
def Settled.option (readSearch : SearchReader) (s : Settled) (option : ValueOption)
    (value : String) : Except UsageError Settled :=
  match option with
  | .format =>
    match s.format, Named.pick .exactly value with
    | some _, _ => .error (.repeatedOption .format)
    | none, .ok format => .ok { s with format := some format }
    | none, .error unknown => .error (.badFormat unknown)
  | .grep =>
    match s.grep, readSearch value with
    | some _, _ => .error (.repeatedOption .grep)
    | none, .ok search => .ok { s with grep := some search }
    | none, .error cause => .error (.badPattern cause)

/-- Settle the suite. -/
def Settled.positional (s : Settled) (argument : String) : Except UsageError Settled :=
  match s.suite, Named.pick .exactly argument with
  | some _, _ => .error (.extraArgument argument)
  | none, .ok suite => .ok { s with suite := some suite }
  | none, .error unknown => .error (.badSuite unknown)

/-- The command of arguments that are all settled. -/
def Settled.command (s : Settled) : Except UsageError Command :=
  match s.suite with
  | some suite => .ok (.generate suite (s.format.getD .test) s.grep)
  | none => .error .missingSuite

/-- The shape of an argument. A lone hyphen and the empty text are plain. -/
inductive Shape where
  | endOfOptions
  | long (name : String) (value : Option String)
  | short (letters : List Char)
  | plain

/-- The shape of an argument; the first `=` parts the name of a long option from its value. -/
def shapeOf (argument : String) : Shape :=
  match argument.toList with
  | ['-', '-'] => .endOfOptions
  | '-' :: '-' :: word =>
    let name := String.ofList (word.takeWhile (· != '='))
    match word.dropWhile (· != '=') with
    | [] => .long name none
    | _ :: value => .long name (some (String.ofList value))
  | '-' :: c :: letters => .short (c :: letters)
  | _ => .plain

/-- A value that stands in an argument of its own looks like no option. -/
def isPlain (argument : String) : Bool :=
  match shapeOf argument with
  | .plain => true
  | _ => false

/-- The option of a long name. -/
def optionNamed? : String → Option ValueOption
  | "format" => some .format
  | "grep" => some .grep
  | _ => none

/-- Read arguments from the left; the first that is not understood decides the error, and a
request for help ends the reading. -/
def readArguments (readSearch : SearchReader) :
    List String → Settled → Except UsageError Command
  | [], s => s.command
  | argument :: rest, s =>
    match shapeOf argument with
    | .plain => do readArguments readSearch rest (← s.positional argument)
    | .endOfOptions => do (← rest.foldlM Settled.positional s).command
    | .short letters =>
      if letters.head? == some 'h' then .ok (.help .short) else .error (.unknownOption argument)
    | .long "help" none => .ok (.help .long)
    | .long "help" (some _) => .error (.unexpectedValue argument)
    | .long name value =>
      match optionNamed? name, value with
      | none, _ => .error (.unknownOption argument)
      | some option, some value => do
        readArguments readSearch rest (← s.option readSearch option value)
      | some option, none =>
        match rest with
        | [] => .error (.missingValue option)
        | value :: rest =>
          if isPlain value then do
            readArguments readSearch rest (← s.option readSearch option value)
          else .error (.missingValue option)

/-- The command of a whole command line. -/
def Command.ofArguments (readSearch : SearchReader) (arguments : List String) :
    Except UsageError Command :=
  readArguments readSearch arguments {}

end BranchCases.CommandLine
