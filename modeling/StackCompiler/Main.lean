import StackCompiler.Command.Run

/-!
# The command line

Reads the arguments, the named file or the typed lines, and prints what running the command
yields.
-/

namespace StackCompiler

/-- Prints on both streams. -/
def Printed.print (p : Printed) : IO Unit := do
  (← IO.getStderr).putStr p.err
  let out ← IO.getStdout
  out.putStr p.out
  out.flush

/-- The bytes of a file. -/
def readContents (path : String) : IO (Except FileFault (List UInt8)) := do
  try
    let bytes ← IO.FS.readBinFile path
    return .ok bytes.toList
  catch
    | .noFileOrDirectory .. => return .error .missing
    | .inappropriateType .. => return .error .directory
    | error => return .error (.other (toString error))

/-- The bytes of the next typed line with its line feed, none at the end of the input. -/
partial def readLine (backwards : List UInt8) : IO (List UInt8) := do
  let bytes ← (← IO.getStdin).read 1
  match bytes.toList with
  | [] => return backwards.reverse
  | b :: _ => if b = 0x0A then return (b :: backwards).reverse else readLine (b :: backwards)

/-- Answers typed lines until the loop is left. -/
partial def loop (s : Session) : IO Unit := do
  Printed.print { out := Repl.prompt }
  let line ← readLine []
  if line.isEmpty then Printed.print { out := Repl.farewell }
  else
    match Repl.answer s line with
    | .leave => return
    | .stay printed s' => do
      printed.print
      loop s'

end StackCompiler

open StackCompiler in
/-- Runs the command that the arguments ask for. -/
def main (args : List String) : IO UInt32 := do
  match Command.parse args with
  | .ok ⟨.repl, options⟩ =>
    loop { options }
    return 0
  | .ok ⟨.file path showTokens showTree, options⟩ =>
    let outcome := runFile options showTokens showTree path (← readContents path)
    outcome.printed.print
    return outcome.exitCode.toUInt32
  | .error fault =>
    Printed.print { err := fault.message ++ "\n" }
    return 1
