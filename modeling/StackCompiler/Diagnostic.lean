import StackCompiler.Fault
import StackCompiler.Text.Lines

/-!
# Diagnostics

What a reader is told about a unit: a category, a message, a place and perhaps a hint.
`Diagnostic.render` shows it with the source line in question and carets under the place.
-/

namespace StackCompiler

/-- Whether a diagnostic stops the compilation. -/
inductive Severity where
  | error | warning
deriving DecidableEq, Repr

/-- Kinds of diagnostics that a reader can tell apart. -/
inductive Category where
  | lexical | grammatical | name | type | overflow
deriving DecidableEq, Repr

/-- The category as it is shown. -/
def Category.text : Category → String
  | lexical => "LexError"
  | grammatical => "SyntaxError"
  | name => "NameError"
  | type => "TypeError"
  | overflow => "OverflowWarning"

/-- All categories. -/
def Category.all : List Category := [lexical, grammatical, name, type, overflow]

/-- The category of a fault. -/
def Fault.category : Fault → Category
  | lexical _ => .lexical
  | grammatical _ => .grammatical
  | name _ => .name
  | type _ => .type

/-- What a reader is told. -/
structure Diagnostic where
  severity : Severity
  category : Category
  message : String
  file : String
  range : Range
  hint : Option String
deriving DecidableEq, Repr

/-- A caret for each column of the range, at least one, as far as the line reaches. The text in
front keeps its tabs, so that the columns line up. -/
def underline (line : List Char) (start stop : Nat) : List Char :=
  let start := min start line.length
  let width := max (min stop line.length - start) 1
  (line.take start).map (fun c => if c = '\t' then '\t' else ' ') ++ List.replicate width '^'

namespace Diagnostic

/-- The lines of a diagnostic beside the source text. A line of the source that does not exist
is left out. -/
def renderLines (d : Diagnostic) (source : String) : List String :=
  let number := toString d.range.line
  let pad := String.ofList (List.replicate number.length ' ')
  let excerpt := match (Text.lines source.toList)[d.range.line - 1]? with
    | some line =>
      [pad ++ " |", number ++ " | " ++ String.ofList line,
       pad ++ " | " ++ String.ofList (underline line d.range.start d.range.stop)]
    | none => []
  let hint := match d.hint with
    | some hint => [pad ++ " = hint: " ++ hint]
    | none => []
  [d.category.text ++ ": " ++ d.message, pad ++ "--> " ++ d.range.location d.file] ++
    excerpt ++ hint

/-- A diagnostic beside the source text. -/
def render (d : Diagnostic) (source : String) : String :=
  String.join ((d.renderLines source).map (· ++ "\n"))

end Diagnostic

/-- What a reader of the file is told about a mistake. -/
def Complaint.diagnostic (file : String) (c : Complaint) : Diagnostic :=
  ⟨.error, c.fault.category, c.fault.message, file, c.range, c.fault.hint?⟩

/-- What a reader of the file is told about a warning. -/
def Warning.diagnostic (file : String) (w : Warning) : Diagnostic :=
  ⟨.warning, .overflow, w.message, file, w.range,
    some "the value is reduced modulo 2^64 when encoded"⟩

/-- A diagnostic in one line. -/
def Diagnostic.oneLine (d : Diagnostic) : String :=
  s!"{d.range.location d.file}: {d.category.text}: {d.message}"

namespace Failure

/-- What a reader of the file is told, if the failure has a place in it. -/
def diagnostic? (file : String) : Failure → Option Diagnostic
  | refused c => some (c.diagnostic file)
  | internal _ | tooManyWarnings .. => none

/-- The category of a failure that has a place. -/
def category? : Failure → Option Category
  | refused c => some c.fault.category
  | internal _ | tooManyWarnings .. => none

/-- Whether no source text is to blame. -/
def isInternal : Failure → Bool
  | internal _ => true
  | refused _ | tooManyWarnings .. => false

/-- The failure in one line. -/
def message (file : String) : Failure → String
  | refused c => (c.diagnostic file).oneLine
  | internal defect => "CompilerInternalError: " ++ defect.message
  | tooManyWarnings count limit =>
    s!"Stopped before code generation: {count} warnings exceed the limit of {limit}"

/-- The failure beside the source text. -/
def render (file source : String) (f : Failure) : String :=
  match f.diagnostic? file with
  | some d => d.render source
  | none => f.message file

end Failure

end StackCompiler
