import StackCompiler.Ty.Basic

/-!
# Environments

What is known about names: a stack of scopes, each with variables and procedures. A name is
bound at most once in a scope, and the binding of the innermost scope is the one that counts.
-/

namespace StackCompiler

/-- What is known about a variable. -/
structure Variable where
  ty : Ty
  isMutable : Bool
  isInitialized : Bool
deriving DecidableEq, Inhabited

/-- What is known about a procedure. -/
structure Procedure where
  parameters : List Ty
  returns : Ty
deriving DecidableEq, Inhabited

/-- The names of one scope. -/
structure Scope where
  vars : List (String × Variable) := []
  procedures : List (String × Procedure) := []
deriving DecidableEq, Inhabited

/-- Scopes, the innermost one apart and the outer ones from the inside out. -/
structure Environment where
  inner : Scope := {}
  outer : List Scope := []
deriving DecidableEq, Inhabited

namespace Scope

/-- The variable of a name. -/
def get? (s : Scope) (name : String) : Option Variable :=
  s.vars.lookup name

/-- The procedure of a name. -/
def getProcedure? (s : Scope) (name : String) : Option Procedure :=
  s.procedures.lookup name

/-- Marks the variable of a name as initialized. -/
def mark (s : Scope) (name : String) : Scope :=
  { s with
    vars := s.vars.map fun (n, v) =>
      if n = name then (n, { v with isInitialized := true }) else (n, v) }

end Scope

namespace Environment

/-- One scope without names. -/
def empty : Environment := {}

/-- All scopes, from the inside out. -/
def scopes (env : Environment) : List Scope :=
  env.inner :: env.outer

/-- The variable that a name stands for. -/
def get? (env : Environment) (name : String) : Option Variable :=
  env.scopes.findSome? (·.get? name)

/-- The procedure that a name stands for. -/
def getProcedure? (env : Environment) (name : String) : Option Procedure :=
  env.scopes.findSome? (·.getProcedure? name)

/-- Binds a variable in the innermost scope. If the name is taken there, the variable is given
back. -/
def define (env : Environment) (name : String) (v : Variable) :
    Except Variable Unit × Environment :=
  if (env.inner.get? name).isSome then (.error v, env)
  else (.ok (), { env with inner.vars := (name, v) :: env.inner.vars })

/-- Binds a procedure in the innermost scope. If the name is taken there, the procedure is given
back. -/
def defineProcedure (env : Environment) (name : String) (p : Procedure) :
    Except Procedure Unit × Environment :=
  if (env.inner.getProcedure? name).isSome then (.error p, env)
  else (.ok (), { env with inner.procedures := (name, p) :: env.inner.procedures })

/-- Marks the variable of the first scope that has the name as initialized. -/
def markFirst (name : String) : List Scope → List Scope
  | [] => []
  | s :: rest => if (s.get? name).isSome then s.mark name :: rest else s :: markFirst name rest

/-- Marks the variable that a name stands for as initialized; without one nothing changes. -/
def mark (env : Environment) (name : String) : Environment :=
  if (env.inner.get? name).isSome then { env with inner := env.inner.mark name }
  else { env with outer := markFirst name env.outer }

/-- Opens a scope inside all others. -/
def enclose (env : Environment) : Environment :=
  { outer := env.scopes }

/-- Leaves the innermost scope, unless it is the only one. -/
def leave? (env : Environment) : Option Environment :=
  match env.outer with
  | [] => none
  | s :: rest => some { inner := s, outer := rest }

end Environment

end StackCompiler
