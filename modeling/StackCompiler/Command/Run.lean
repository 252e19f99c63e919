import StackCompiler.Command.Arguments
import StackCompiler.Text.Blank

/-!
# Running a command

What a command prints, for the contents of a file or for the lines that are typed.
-/

namespace StackCompiler

/-- What is printed on the two output streams. -/
structure Printed where
  out : String := ""
  err : String := ""
deriving DecidableEq, Repr, Inhabited

instance : Append Printed :=
  ⟨fun a b => ⟨a.out ++ b.out, a.err ++ b.err⟩⟩

/-- What a command leaves behind. -/
structure Outcome where
  printed : Printed
  exitCode : Nat
deriving DecidableEq, Repr

/-- Why a file has no text. -/
inductive FileFault where
  | missing
  | directory
  | notText
  | other (reason : String)
deriving DecidableEq, Repr

/-- The reason in words. -/
def FileFault.message : FileFault → String
  | missing => "No such file or directory (os error 2)"
  | directory => "Is a directory (os error 21)"
  | notText => "stream did not contain valid UTF-8"
  | other reason => reason

/-- The warnings and the listing of a unit. -/
def Compilation.printed (file source : String) (c : Compilation) : Printed :=
  { out := c.bytecode.text,
    err := String.join (c.warnings.map fun w => (w.diagnostic file).render source ++ "\n") }

/-- A failure beside the source text. -/
def Failure.printed (file source : String) (f : Failure) : Printed :=
  { err := f.render file source ++ "\n" }

/-- A list of tokens, one a line. -/
def printedTokens (file : String) (tokens : List Token) : Printed :=
  { out := String.join (tokens.map fun t => t.listing file ++ "\n") }

/-- Compiles the text of a file. The tokens, if they are asked for, are printed before anything
else, and the tree before the listing. -/
def compileFile (options : Options) (showTokens showTree : Bool) (file source : String) :
    Outcome :=
  match tokenize source with
  | .error complaint => ⟨(Failure.refused complaint).printed file source, 1⟩
  | .ok tokens =>
    let first := if showTokens then printedTokens file tokens else {}
    match compile options source with
    | .error failure => ⟨first ++ failure.printed file source, 1⟩
    | .ok c =>
      let tree : Printed := if showTree then { out := c.program.text ++ "\n" } else {}
      ⟨first ++ tree ++ c.printed file source, 0⟩

/-- Compiles a file by its contents. -/
def runFile (options : Options) (showTokens showTree : Bool) (path : String)
    (contents : Except FileFault (List UInt8)) : Outcome :=
  let text : Except FileFault String := do
    let bytes ← contents
    match Text.Utf8.decode? bytes with
    | some text => return text
    | none => throw .notText
  match text with
  | .ok source => compileFile options showTokens showTree path source
  | .error fault =>
    ⟨{ err := s!"Failed open source file {path}: {fault.message}\n" }, 1⟩

namespace Repl

/-- What is printed before a line is read. -/
def prompt : String := "> "

/-- What is printed when no line is left. -/
def farewell : String := "\nExited fugu repl\n"

/-- How the loop goes on after a line. -/
inductive Reply where
  | leave
  | stay (printed : Printed) (session : Session)

/-- Compiles a typed line without the white space around it. An empty line is passed over, and
`exit` ends the loop. -/
def answer (s : Session) (line : List UInt8) : Reply :=
  match Text.Utf8.decode? line with
  | none =>
    .stay { err := s!"Failed read line: {FileFault.notText.message}\n" } s
  | some text =>
    let source := String.ofList (Text.trim text.toList)
    if source = "exit" then .leave
    else if source = "" then .stay {} s
    else
      match s.compile source with
      | (.ok c, s') => .stay (c.printed "repl" source) s'
      | (.error failure, s') => .stay (failure.printed "repl" source) s'

/-- What is printed while lines are typed. -/
def run (s : Session) : List (List UInt8) → Printed
  | [] => { out := prompt ++ farewell }
  | line :: lines =>
    match answer s line with
    | .leave => { out := prompt }
    | .stay printed s' => { out := prompt } ++ printed ++ run s' lines

/-- The lines of an input, of which `backwards` has been read of the first. -/
def inputLines (backwards : List UInt8) : List UInt8 → List (List UInt8)
  | [] => if backwards.isEmpty then [] else [backwards.reverse]
  | b :: bytes =>
    if b = 0x0A then (b :: backwards).reverse :: inputLines [] bytes
    else inputLines (b :: backwards) bytes

end Repl

/-- Runs a command line, with a way to read files and with all that is typed. -/
def runCommand (args : List String) (readFile : String → Except FileFault (List UInt8))
    (input : List UInt8) : Outcome :=
  match Command.parse args with
  | .error fault => ⟨{ err := fault.message ++ "\n" }, 1⟩
  | .ok ⟨.file path showTokens showTree, options⟩ =>
    runFile options showTokens showTree path (readFile path)
  | .ok ⟨.repl, options⟩ => ⟨Repl.run { options } (Repl.inputLines [] input), 0⟩

end StackCompiler
