import StackCompiler.Code.Bytecode
import StackCompiler.Diagnostic
import StackCompiler.Program.Parse
import StackCompiler.Token.Scan
import StackCompiler.Typing

/-!
# Sessions

A session compiles units one after another. What a unit declares is known to the later ones; a
unit that fails leaves no trace.
-/

namespace StackCompiler

/-- How units are compiled. With a warning limit, a unit with more warnings yields no code. -/
structure Options where
  warningLimit : Option Nat := none
  constants : ConstantMode := .inline
deriving DecidableEq, Repr, Inhabited

/-- What a unit yields; the program has its constant parts evaluated. -/
structure Compilation where
  program : Program
  bytecode : Bytecode
  warnings : List Warning
deriving DecidableEq, Inhabited

/-- What earlier units have declared. -/
structure Session where
  options : Options := {}
  environment : Environment := {}
  slots : SlotTable := {}
deriving Inhabited

/-- The program of a source text, as it is written. -/
def Program.ofSource (source : String) : Except Failure Program :=
  match tokenize source with
  | .ok tokens => Program.parse tokens
  | .error complaint => .error (.refused complaint)

/-- Whether a number of warnings is too many. -/
def Options.exceeded? (options : Options) (count : Nat) : Option Failure :=
  match options.warningLimit with
  | some limit => if limit < count then some (.tooManyWarnings count limit) else none
  | none => none

namespace Session

/-- Compiles a program that has been read, and takes over its declarations if there is no
failure. -/
def compileProgram (s : Session) (p : Program) : Except Failure (Compilation × Session) :=
  match (Program.check p).run { environment := s.environment } with
  | .error complaint _ => .error (.refused complaint)
  | .ok () checked =>
    match s.options.exceeded? checked.warnings.length with
    | some failure => .error failure
    | none =>
      match p.generate s.options.constants s.slots with
      | (.error defect, _) => .error (.internal defect)
      | (.ok bytecode, slots) =>
        .ok (⟨p, bytecode, checked.warnings⟩,
          { s with environment := checked.environment, slots })

/-- Compiles a unit. After a failure the session is as before. -/
def compile (s : Session) (source : String) : Except Failure Compilation × Session :=
  match Program.ofSource source with
  | .error failure => (.error failure, s)
  | .ok p =>
    match s.compileProgram p.fold with
    | .error failure => (.error failure, s)
    | .ok (compilation, s') => (.ok compilation, s')

end Session

/-- Compiles a unit on its own. -/
def compile (options : Options) (source : String) : Except Failure Compilation :=
  (Session.compile { options } source).1

end StackCompiler
