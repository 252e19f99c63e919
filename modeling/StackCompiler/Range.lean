/-!
# Places in a source text

A `Range` is a stretch of one line of a source text. A `Cursor` is the place where reading
stands; `Cursor.advance` moves it over text and `Cursor.span` is the range of the text that
starts at it.
-/

namespace StackCompiler

/-- A stretch of one line: the line is counted from one, the columns are counted from zero in
characters, and `stop` is the first column after the stretch. -/
structure Range where
  line : Nat
  start : Nat
  stop : Nat
deriving DecidableEq, Repr, Inhabited

namespace Range

/-- From the start of `a` to the end of `b`; a range never leaves its first line. -/
def through (a b : Range) : Range :=
  { a with stop := if b.line = a.line then max b.stop a.stop else a.stop }

/-- The place as a reader of the file `file` counts it, columns from one. -/
def location (file : String) (r : Range) : String :=
  s!"{file}:{r.line}:{r.start + 1}"

@[simp] theorem through_line (a b : Range) : (a.through b).line = a.line := rfl

@[simp] theorem through_start (a b : Range) : (a.through b).start = a.start := rfl

end Range

/-- A place between two characters. -/
structure Cursor where
  line : Nat
  column : Nat
deriving DecidableEq, Repr, Inhabited

namespace Cursor

/-- The place before the first character. -/
def origin : Cursor := ⟨1, 0⟩

/-- The place after one more character. -/
def step (here : Cursor) (c : Char) : Cursor :=
  if c = '\n' then ⟨here.line + 1, 0⟩ else ⟨here.line, here.column + 1⟩

/-- The place after more text. -/
def advance (here : Cursor) (text : List Char) : Cursor :=
  text.foldl step here

/-- The range of the text that starts here. Text that goes on to another line is shown by its
first column alone. -/
def span (here : Cursor) (text : List Char) : Range :=
  let after := here.advance text
  ⟨here.line, here.column, if after.line = here.line then after.column else here.column + 1⟩

@[simp] theorem advance_nil (here : Cursor) : here.advance [] = here := rfl

@[simp] theorem advance_cons (here : Cursor) (c : Char) (text : List Char) :
    here.advance (c :: text) = (here.step c).advance text := rfl

theorem advance_append (here : Cursor) (s t : List Char) :
    here.advance (s ++ t) = (here.advance s).advance t := by
  simp [advance]

end Cursor

end StackCompiler
