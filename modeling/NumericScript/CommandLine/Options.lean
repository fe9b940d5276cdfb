import NumericScript.Narration
import NumericScript.Word

/-!
# Command line arguments

The arguments name one script file and set limits and output. `--` ends the options, and a lone
`-` is a file's name. Short flags may be written together. An option with a value takes it after
`=` or from the next argument, which then may not look like an option.
-/

namespace NumericScript

/-- Why the arguments are refused. -/
inductive UsageError
  | unknownOption (argument : String)
  | repeated (option : String)
  | missingValue (option : String)
  | unwantedValue (option : String)
  | invalidValue (option value : String)
  | extraArgument (argument : String)
  | missingFile

/-- The refusal in words. -/
def UsageError.text : UsageError → String
  | unknownOption argument => "unexpected argument '" ++ argument ++ "'"
  | repeated option => "the option '" ++ option ++ "' cannot be given more than once"
  | missingValue option => "the option '" ++ option ++ "' needs a value"
  | unwantedValue option => "the option '" ++ option ++ "' takes no value"
  | invalidValue option value => "invalid value '" ++ value ++ "' for '" ++ option ++ "'"
  | extraArgument argument => "unexpected argument '" ++ argument ++ "'"
  | missingFile => "a script file has to be given"

/-- What the arguments have set. -/
structure Options where
  file : Option String := none
  maxIterations : Option Nat := none
  timeout : Option Nat := none
  dump : Bool := false
  verbosity : Nat := 0

/-- What the arguments ask for. -/
inductive Request
  | help
  | run (file : String) (options : Options)

/-- The flags, which take no value. -/
inductive Flag
  | dump
  | verbose
  | help

namespace Flag

/-- The flag with a letter. -/
def ofLetter? : Char → Option Flag
  | 'd' => some dump
  | 'v' => some verbose
  | 'h' => some help
  | _ => none

/-- The flag with a long name. -/
def ofName? : String → Option Flag
  | "dump" => some dump
  | "verbose" => some verbose
  | "help" => some help
  | _ => none

end Flag

/-- The options with a value. -/
inductive Setting
  | maxIterations
  | timeout

namespace Setting

/-- The option with a long name. -/
def ofName? : String → Option Setting
  | "max-iterations" => some maxIterations
  | "timeout-ms" => some timeout
  | _ => none

/-- The long name with its dashes. -/
def text : Setting → String
  | maxIterations => "--max-iterations"
  | timeout => "--timeout-ms"

/-- Set an option, which has to be a whole number of 64 bits and may be given once. -/
def set (setting : Setting) (value : List Char) (options : Options) :
    Except UsageError Options :=
  match readWord? value with
  | none => .error (.invalidValue setting.text (String.ofList value))
  | some word =>
    match setting with
    | maxIterations =>
      if options.maxIterations.isSome then .error (.repeated setting.text)
      else .ok { options with maxIterations := some word.toNat }
    | timeout =>
      if options.timeout.isSome then .error (.repeated setting.text)
      else .ok { options with timeout := some word.toNat }

end Setting

namespace Options

/-- Set the file. -/
def setFile (options : Options) (argument : String) : Except UsageError Options :=
  match options.file with
  | some _ => .error (.extraArgument argument)
  | none => .ok { options with file := some argument }

/-- Set a flag; asking for help gives nothing to go on with. -/
def setFlag (options : Options) : Flag → Except UsageError (Option Options)
  | .dump =>
    if options.dump then .error (.repeated "--dump") else .ok (some { options with dump := true })
  | .verbose => .ok (some { options with verbosity := options.verbosity + 1 })
  | .help => .ok none

/-- Set the flags of a cluster of letters. -/
def setLetters (options : Options) (argument : String) :
    List Char → Except UsageError (Option Options)
  | [] => .ok (some options)
  | c :: rest =>
    match Flag.ofLetter? c with
    | none => .error (.unknownOption argument)
    | some flag =>
      match options.setFlag flag with
      | .error error => .error error
      | .ok none => .ok none
      | .ok (some options) => options.setLetters argument rest

/-- What stands before and after the first `=` of a long option. -/
def splitLong (body : List Char) : String × Option (List Char) :=
  (String.ofList (body.takeWhile (· ≠ '=')),
    match body.dropWhile (· ≠ '=') with
    | [] => none
    | _ :: value => some value)

/-- What the options have asked for at the end of the arguments. -/
def finish (options : Options) : Except UsageError Request :=
  match options.file with
  | some file => .ok (.run file options)
  | none => .error .missingFile

/-- Take the arguments after `--`, which are files. -/
def takeFiles (options : Options) : List String → Except UsageError Request
  | [] => options.finish
  | argument :: later =>
    match options.setFile argument with
    | .error error => .error error
    | .ok options => options.takeFiles later

/-- Take the arguments; `setting` is an option that waits for its value. -/
def take (options : Options) (waiting : Option Setting) : List String → Except UsageError Request
  | [] =>
    match waiting with
    | some setting => .error (.missingValue setting.text)
    | none => options.finish
  | argument :: later =>
    match waiting, argument.toList with
    | some setting, '-' :: _ :: _ => .error (.missingValue setting.text)
    | some setting, value =>
      match setting.set value options with
      | .error error => .error error
      | .ok options => options.take none later
    | none, ['-', '-'] => options.takeFiles later
    | none, '-' :: '-' :: body =>
      let (name, value) := splitLong body
      match Setting.ofName? name, Flag.ofName? name, value with
      | some setting, _, none => options.take (some setting) later
      | some setting, _, some value =>
        match setting.set value options with
        | .error error => .error error
        | .ok options => options.take none later
      | none, some _, some _ => .error (.unwantedValue ("--" ++ name))
      | none, some flag, none =>
        match options.setFlag flag with
        | .error error => .error error
        | .ok none => .ok .help
        | .ok (some options) => options.take none later
      | none, none, _ => .error (.unknownOption argument)
    | none, '-' :: letter :: letters =>
      match options.setLetters argument (letter :: letters) with
      | .error error => .error error
      | .ok none => .ok .help
      | .ok (some options) => options.take none later
    | none, _ =>
      match options.setFile argument with
      | .error error => .error error
      | .ok options => options.take none later

/-- What arguments ask for. -/
def ofArguments (arguments : List String) : Except UsageError Request :=
  take {} none arguments

/-- The limits of a run with these options. -/
def limits (options : Options) : Limits :=
  { maxIterations := options.maxIterations, timeout := options.timeout }

/-- The level that is listened to. -/
def level (options : Options) : Level :=
  match options.verbosity with
  | 0 => .warn
  | 1 => .info
  | _ => .debug

end Options

/-- How to use the program. -/
def usage : String :=
  "Run a script and show the variables it leaves behind\n\n" ++
  "Usage: numericscript [OPTIONS] <FILE>\n\n" ++
  "Options:\n" ++
  "      --max-iterations <N>  Abort after this many while-loop iterations\n" ++
  "      --timeout-ms <MS>     Abort a script that loops for longer than this\n" ++
  "  -d, --dump                Print every variable and array element after the run\n" ++
  "  -v, --verbose             Log diagnostics (-v) or evaluation detail (-vv)\n" ++
  "  -h, --help                Print help\n"

end NumericScript
