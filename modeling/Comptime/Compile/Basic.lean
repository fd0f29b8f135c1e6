import Comptime.Lowering.Build
import Comptime.Machine.Exec
import Comptime.Plan.Basic

/-!
# Compilations

The state of a compilation beside the scheduler: the machine that runs code at compile time, the code built so far and
the values that run directives have computed. Declarations are scheduled under their identities.
-/

namespace Comptime

/-- A front end that only asks for what a plan says: it checks declarations and computes their sizes by replaying the
items of the same names. -/
structure Checker where
  plan : Plan
  /-- What the names in the plan stand for. -/
  decls : List (String × Symbol)

namespace Compile

structure Options where
  direct : Convention.DirectSize := Convention.standard
  /-- Without one everything is accepted as it is. -/
  checker : Option Checker := none
  /-- The limit of every execution at compile time. Zero leaves the machine its own. -/
  maxSteps : Int := 0

/-- A value computed by a run directive, as it lies in memory. -/
structure RunResult where
  name : String
  value : List UInt8
deriving DecidableEq, Repr

structure State where
  machine : Machine := {}
  /-- The code of declarations, by identity. -/
  built : List (Nat × Built) := []
  runs : List RunResult := []

abbrev Act := Scheduler.Act Nat State

/-- An attempt at a phase, which may end in a failure. -/
abbrev Attempt := ExceptT Failure Act

/-- The declaration named has not come under the scheduler. -/
def undeclared (s : Symbol) : Failure := .plain (s.name ++ " is not declared")

/-- What an entity is told that asks for a declaration: nothing if that has come far enough. -/
def answer (pool : Pool Nat) (self : Nat) (s : Symbol) (p : Phase) : Option Failure :=
  match pool.lookup s.id with
  | none => some (undeclared s)
  | some target =>
    match pool.require self target p with
    | .ok (_, .error f) => some f
    | _ => none

/-- Asks for a declaration. -/
def require (self : Nat) (s : Symbol) (p : Phase) : Act (Except Failure Unit) := do
  match (← Scheduler.Act.scheduler).pool.lookup s.id with
  | none => return .error (undeclared s)
  | some target => Scheduler.Act.require self target p

/-- Asks for a declaration and goes on, whatever the answer is. -/
def ask (self : Nat) (s : Symbol) (p : Phase) : Attempt (Except Failure Unit) := ExceptT.lift (require self s p)

def state : Attempt State := do return (← (Scheduler.Act.own : Act State))

def modifyState (f : State → State) : Attempt Unit := do (Scheduler.Act.modifyOwn f : Act Unit)

def abort {α : Type} (a : Abort) : Attempt α := do (Scheduler.Act.abort a : Act α)

/-- Something that has to be there. -/
def orFault {α : Type} : Option α → Attempt α
  | some a => pure a
  | none => abort .fault

/-- The address of a global of a type. -/
def global (name : String) (ty : Ty) : Attempt UInt64 := do
  let e ← orFault ty.extent?
  let (m, a) := (← state).machine.global name e.size e.align
  modifyState ({ · with machine := m })
  return a

/-- Runs a procedure of the machine. What it did before it failed stays done. -/
def call (name : String) (args : List UInt64) : Attempt UInt64 := do
  let (m, r) := (← state).machine.call name args
  modifyState ({ · with machine := m })
  match r with
  | .ok v => return v
  | .error h =>
    match h.toStop with
    | .failed f => throw f
    | .aborted a => abort a

/-- Puts a context around the failures of an attempt. -/
def inContext {α : Type} (context : String) (x : Attempt α) : Attempt α :=
  ExceptT.mk do return (← x.run).mapError (.within context)

end Compile

end Comptime
