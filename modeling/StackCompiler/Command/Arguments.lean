import StackCompiler.Session

/-!
# Command-line arguments

The command line names what to do, `file` or `repl`, and options before or after the path of the
file. Arguments are taken from left to right and the first problem is the one reported; a missing
path is found at the end. After `--` no argument is an option.
-/

namespace StackCompiler

/-- What the command line asks for. -/
inductive Mode where
  | file (path : String) (showTokens showTree : Bool)
  | repl
deriving DecidableEq, Repr

/-- What to do, and how units are compiled. -/
structure Command where
  mode : Mode
  options : Options
deriving DecidableEq, Repr

/-- Arguments that make no command. -/
inductive UsageFault where
  | missingCommand
  | unknownCommand (word : String)
  | unexpected (argument : String)
  | unexpectedValue (option value : String)
  | repeated (option : String)
  | missingPath
  | missingLimit
  | invalidLimit (value : String)
deriving DecidableEq, Repr

/-- The option of a warning limit, with its value. -/
def limitOption : String := "--max-warnings <MAX_WARNINGS>"

/-- The fault in words. -/
def UsageFault.message : UsageFault → String
  | missingCommand => "the subcommand is required but not provided"
  | unknownCommand word => s!"unrecognized subcommand '{word}'"
  | unexpected argument => s!"unexpected argument '{argument}'"
  | unexpectedValue option value => s!"unexpected value '{value}' for '{option}'"
  | repeated option => s!"the argument '{option}' cannot be used multiple times"
  | missingPath => "the argument '<PATH>' is required but not provided"
  | missingLimit => s!"a value is required for '{limitOption}' but none was supplied"
  | invalidLimit value => s!"invalid value '{value}' for '{limitOption}'"

/-- Options without a value. -/
inductive Flag where
  | denyWarnings | constantPool | showTokens | showTree
deriving DecidableEq, Repr

/-- How the option is written. -/
def Flag.text : Flag → String
  | denyWarnings => "--deny-warnings"
  | constantPool => "--constant-pool"
  | showTokens => "--tokens"
  | showTree => "--ast"

/-- What a command takes: the options without a value, and whether it takes a path. -/
structure Usage where
  flags : List Flag
  takesPath : Bool

/-- What the command `file` takes. -/
def Usage.file : Usage := ⟨[.denyWarnings, .constantPool, .showTokens, .showTree], true⟩

/-- What the command `repl` takes. -/
def Usage.repl : Usage := ⟨[.denyWarnings, .constantPool], false⟩

/-- What has been read of the arguments of a command. -/
structure Arguments where
  flags : List Flag := []
  limit : Option Nat := none
  path : Option String := none
deriving DecidableEq, Repr, Inhabited

/-- A natural number of 64 bits in decimal digits, perhaps behind a plus sign. -/
def parseCount? (text : String) : Option Nat :=
  let digits := match text.toList with
    | '+' :: rest => rest
    | chars => chars
  let value := Number.ofDigits digits
  if digits ≠ [] ∧ digits.all Char.isDigit ∧ Number.FitsUnsigned 64 value then some value else none

namespace Arguments

/-- Takes an argument that is no option. -/
def takePath (usage : Usage) (args : Arguments) (word : String) : Except UsageFault Arguments :=
  if usage.takesPath ∧ args.path = none then .ok { args with path := some word }
  else .error (.unexpected word)

/-- Takes arguments none of which is an option. -/
def takePaths (usage : Usage) (args : Arguments) : List String → Except UsageFault Arguments
  | [] => .ok args
  | word :: words => do
    let args ← args.takePath usage word
    takePaths usage args words

/-- Takes a warning limit. -/
def takeLimit (args : Arguments) (value : String) : Except UsageFault Arguments :=
  if args.limit.isSome then .error (.repeated limitOption)
  else
    match parseCount? value with
    | some limit => .ok { args with limit := some limit }
    | none => .error (.invalidLimit value)

/-- Takes an option without a value; `value?` is what stands behind an equals sign. -/
def takeFlag (usage : Usage) (args : Arguments) (name : String) (value? : Option String) :
    Except UsageFault Arguments :=
  match usage.flags.find? (·.text == name), value? with
  | none, _ => .error (.unexpected name)
  | some _, some value => .error (.unexpectedValue name value)
  | some flag, none =>
    if flag ∈ args.flags then .error (.repeated name)
    else .ok { args with flags := flag :: args.flags }

/-- The name of an option and what stands behind an equals sign. -/
def splitOption (word : String) : String × Option String :=
  let chars := word.toList
  let name := chars.takeWhile (· ≠ '=')
  match chars.drop name.length with
  | [] => (word, none)
  | _ :: value => (String.ofList name, some (String.ofList value))

/-- Whether an argument looks like an option. -/
def isOption (word : String) : Bool :=
  match word.toList with
  | '-' :: _ :: _ => true
  | _ => false

/-- Whether an argument is an option with a long name. -/
def isLongOption (word : String) : Bool :=
  match word.toList with
  | '-' :: '-' :: _ => true
  | _ => false

/-- Reads the arguments of a command. -/
def read (usage : Usage) (args : Arguments) : List String → Except UsageFault Arguments
  | [] => .ok args
  | word :: words =>
    if word = "--" then args.takePaths usage words
    else if isLongOption word then
      let (name, value?) := splitOption word
      if name = "--max-warnings" then
        match value? with
        | some value => do
          let args ← args.takeLimit value
          read usage args words
        | none =>
          match words with
          | [] => .error .missingLimit
          | value :: words =>
            if value.toList.head? = some '-' then .error .missingLimit
            else do
              let args ← args.takeLimit value
              read usage args words
      else do
        let args ← args.takeFlag usage name value?
        read usage args words
    else if isOption word then .error (.unexpected (String.ofList (word.toList.take 2)))
    else do
      let args ← args.takePath usage word
      read usage args words

/-- How units are compiled. To deny warnings is to limit them to none. -/
def options (args : Arguments) : Options :=
  { warningLimit := if .denyWarnings ∈ args.flags then some 0 else args.limit,
    constants := if .constantPool ∈ args.flags then .pooled else .inline }

end Arguments

namespace Command

/-- The command for its name and arguments. -/
def ofName (name : String) (words : List String) : Except UsageFault Command :=
  if name = "file" then do
    let args ← Arguments.read .file {} words
    match args.path with
    | some path =>
      return ⟨.file path (.showTokens ∈ args.flags) (.showTree ∈ args.flags), args.options⟩
    | none => .error .missingPath
  else if name = "repl" then do
    let args ← Arguments.read .repl {} words
    return ⟨.repl, args.options⟩
  else .error (.unknownCommand name)

/-- The command that a command line asks for. -/
def parse : List String → Except UsageFault Command
  | [] => .error .missingCommand
  | word :: words =>
    if Arguments.isLongOption word then .error (.unexpected (Arguments.splitOption word).1)
    else if Arguments.isOption word then .error (.unexpected (String.ofList (word.toList.take 2)))
    else ofName word words

end Command

end StackCompiler
