import Comptime.Compile.Execution

/-!
# Compiling declarations

Every declaration goes through the phases under the scheduler. Procedures, initializers of globals and run directives
are lowered; initializers and directives are then executed as soon as everything they may reach is ready.
-/

namespace Comptime

/-- Replays what the plan says about a declaration. -/
def Checker.check (c : Checker) (self : Nat) (d : Decl) (p : Phase) : Compile.Act (Except Failure Unit) :=
  match c.plan.item? d.name with
  | none => return .ok ()
  | some i => i.replay p fun target needed =>
    match c.decls.lookup target with
    | none => return .error (.plain (i.name ++ ": no declaration for " ++ target))
    | some s => Compile.require self s needed

namespace Compile

/-- Lowers a procedure as the code of a declaration. What it needs from others is recorded. -/
def build (options : Options) (self id : Nat) (p : ProcDecl) : Attempt Unit := do
  let pool := (← (Scheduler.Act.scheduler : Act (Scheduler Nat))).pool
  let r := p.build { direct := options.direct, ready := some (answer pool self) }
  for (s, needed) in r.asked do
    discard (ask self s needed)
  match r.built with
  | .ok b => modifyState fun st => { st with built := (id, b) :: st.built, machine := st.machine.addProc b.proc }
  | .error (.failed f) => throw f
  | .error (.aborted a) => abort a

/-- The procedure that gives a global its initial value. -/
def initializer (v : Variable) (init : Expr) : ProcDecl where
  id := v.id
  name := v.name ++ ".init"
  ins := []
  outs := []
  params := []
  body := some [.assign none [.ident v.ty (.var v)] [init]]

/-- The procedure that evaluates the expression of a directive. There is nothing to return if it has no size. -/
def directive (id : Nat) (name : String) (x : Expr) : Option ProcDecl := do
  let t ← x.ty?
  let size ← t.size?
  let proc := fun (outs : List Ty) (s : Stmt) =>
    ({ id, name, ins := [], outs, params := [], body := some [s] } : ProcDecl)
  return if size = 0 then proc [] (.expr x) else proc [t] (.ret [x])

/-- A declaration's code is built. -/
def buildBytecode (options : Options) (self : Nat) (runName : String) : Decl → Attempt Unit
  | .proc p => build options self p.id p
  | .var v init => do
    discard (global v.name v.ty)
    unless init.isAbsent do
      build options self v.id (initializer v init)
  | .run id x => do build options self id (← orFault (directive id runName x))
  | .type _ _ => return ()

/-- A declaration's code is executed, if that happens at compile time. -/
def runCode (self : Nat) (runName : String) : Decl → Attempt Unit
  | .var v _ => do
    match (← state).built.lookup v.id with
    | none => return ()
    | some b =>
      ready self v.id b
      discard (inContext ("init " ++ v.name) (call b.proc.name []))
  | .run id _ => do
    let b ← orFault ((← state).built.lookup id)
    ready self id b
    let value ← inContext runName (execute b)
    modifyState fun st => { st with runs := st.runs ++ [{ name := runName, value }] }
  | .proc _ | .type _ _ => return ()

/-- The name of a run directive: its number among the directives. -/
def runName (decls : List Decl) (id : Nat) : String :=
  let directives := decls.filterMap fun
    | .run i _ => some i
    | _ => none
  "#run." ++ toString (directives.idxOf id)

/-- Makes a declaration attempt a phase. -/
def handler (options : Options) (decls : List Decl) : Scheduler.Handler Nat State := fun p self => do
  match ((← Scheduler.Act.scheduler).pool.entity self).node.bind fun id => decls.find? (·.id == id) with
  | none => return .ok ()
  | some d =>
    if p = .bytecodeBuilt then (buildBytecode options self (runName decls d.id) d).run
    else if p = .run then (runCode self (runName decls d.id) d).run
    else
      match options.checker with
      | none => return .ok ()
      | some c => c.check self d p

/-- A scheduler with these declarations, all of whose phases have a handler. -/
def scheduler (decls : List Decl) : Except Abort (Scheduler Nat) := do
  let s ← decls.foldlM (fun (s : Scheduler Nat) d => do return (← s.register d.id).1) {}
  Phase.handled.foldlM (fun s p => s.setHandler p) s

end Compile

/-- What a compilation has produced. It is there even if declarations have failed. -/
structure Compiled where
  result : Except Failure Unit
  rounds : Nat
  diagnostics : List (Pool.Diagnostic Nat)
  runs : List Compile.RunResult
  /-- The code of the procedures. -/
  procs : List Built
  machine : Machine

/-- Takes the declarations through all the phases. -/
def compile (options : Compile.Options) (decls : List Decl) : Except Abort Compiled := do
  let s ← Compile.scheduler decls
  let limits : Limits := if options.maxSteps = 0 then {} else { maxSteps := options.maxSteps }
  match (Scheduler.run (Compile.handler options decls)).run ⟨s, { machine := { limits } }⟩ with
  | .error a _ => throw a
  | .ok result w =>
    let built := w.own.built
    return {
      result
      rounds := w.scheduler.rounds
      diagnostics := w.scheduler.pool.diagnostics
      runs := w.own.runs
      procs := decls.filterMap fun
        | .proc p => built.lookup p.id
        | _ => none
      machine := w.own.machine }

/-- The contents of a global when the compilation has ended. -/
def Machine.contents (m : Machine) (v : Variable) : Machine × Except Stop (List UInt8) :=
  match v.ty.extent? with
  | none => (m, .error (.aborted .fault))
  | some e =>
    let (m, a) := m.global v.name e.size e.align
    match m.memory.read a e.size with
    | .ok bytes => (m, .ok bytes.toList)
    | .error err => (m, .error (.failed err.toFailure))

end Comptime
