import Comptime.Compile.Basic

/-!
# Execution at compile time

Code is run only when everything it may reach is ready: the procedures it calls, directly or not, are built, and the
globals they use are initialized. All that is missing is asked for at once.
-/

namespace Comptime.Compile

/-- A walk over the code that can be reached. -/
structure Reach where
  /-- The declarations the walk has come to, and the phase it asks of them: globals have to have run, procedures to be
  built. -/
  seen : List (Nat × Phase)
  /-- The last answer that something is not there yet. -/
  missing : Option Failure := none

/-- Asks for a declaration the walk has not come to, and goes on with `next` if that is there. -/
def Reach.visit (r : Reach) (self : Nat) (s : Symbol) (p : Phase) (next : Reach → Attempt Reach) : Attempt Reach := do
  if (s.id, p) ∈ r.seen then
    return r
  let r := { r with seen := (s.id, p) :: r.seen }
  match ← ask self s p with
  | .ok () => next r
  | .error f => if f.isCause .yield then return { r with missing := some f } else throw f

/-- Walks over the globals and callees of some code, and over the code of the callees. No path of new declarations is
longer than `fuel`. -/
def reach (self : Nat) : (fuel : Nat) → Built → Reach → Attempt Reach
  | 0, _, r => return r
  | fuel + 1, b, r => do
    let r ← b.globals.foldlM (fun r g => r.visit self g.toSymbol .run pure) r
    b.callees.foldlM (fun r p => r.visit self p.toSymbol .bytecodeBuilt fun r => do
      reach self fuel (← orFault ((← state).built.lookup p.id)) r) r

/-- Gives up for now unless everything the code of a declaration may reach is ready. -/
def ready (self : Nat) (id : Nat) (b : Built) : Attempt Unit := do
  let count := (← state).built.length
  match (← reach self (count + 1) b { seen := [(id, .run)] }).missing with
  | some f => throw f
  | none => return ()

/-- Runs the code of a directive and gives the bytes of its result. A result that is not returned in a register is
written to a global made for it. -/
def execute (b : Built) : Attempt (List UInt8) := do
  match b.sig.results with
  | [] =>
    discard (call b.proc.name [])
    return []
  | t :: _ =>
    if b.sig.hidden.isEmpty then
      let v ← call b.proc.name []
      let size ← orFault t.size?
      if size < 0 || size > 8 then
        abort .fault
      return (Memory.littleEndian 8 v).take size.toInt.toNat
    let out ← global (b.proc.name ++ ".out") t
    discard (call b.proc.name [out])
    match (← state).machine.memory.read out (← orFault t.size?) with
    | .ok bytes => return bytes.toList
    | .error e => throw e.toFailure

end Comptime.Compile
