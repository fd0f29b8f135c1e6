import Comptime.Lowering.Stmt

/-!
# Lowering a procedure

The entry of a procedure keeps the pointers for its results, spills the parameters that arrive in registers to the stack,
and addresses the others through the pointer that arrives for them. A procedure whose end is reached returns zero.
-/

namespace Comptime

/-- A lowered procedure, and what it refers to. -/
structure Built where
  proc : Proc
  sig : Sig
  callees : List ProcRef
  globals : List Variable

namespace Build

/-- Keeps the pointers for results, which arrive in the registers from `r` on. -/
def keepOuts (r : Nat) : List Hidden → Build Unit
  | [] => pure ()
  | h :: hs => do
    modify fun b => { b with regs := b.regs.keep r, outs := (h.result, (r : Int)) :: b.outs }
    keepOuts (r + 1) hs

/-- Gives every parameter a place. `r` is the register the next one arrives in. -/
def enterParams (r : Nat) : List Param → List Variable → Build Unit
  | [], _ => pure ()
  | p :: ps, vs => do
    let v := vs.head?
    match p.rule with
    | .ignore =>
      if let some v := v then
        bindSlot v (← reserve ⟨0, (← extent p.ty).align⟩)
      enterParams r ps vs.tail
    | .direct =>
      if let some v := v then
        let e ← extent p.ty
        let slot ← reserve e
        store p.reg slot r e.align
        bindSlot v slot
      enterParams (r + 1) ps vs.tail
    | .indirect =>
      modify fun b => { b with regs := b.regs.keep r }
      if let some v := v then bindSlot v r
      enterParams (r + 1) ps vs.tail

/-- Emits the entry sequence. -/
def enter (params : List Variable) : Build Unit := do
  let sig := (← get).sig
  modify fun b => { b with entering := true, regs := .ofParams sig.regParams.length }
  keepOuts 0 sig.hidden
  enterParams sig.hidden.length sig.params params
  reclaim
  modify fun b => { b with entering := false }

/-- Returns zero. -/
def implicitReturn : Build Unit := do
  let t := (← get).sig.retReg
  ret t (← if t = .void then pure noReg else imm t 0)

/-- Lowers a body from its entry to its end, and freezes the code. -/
def procedure (p : ProcDecl) (body : List Stmt) : Build Built := do
  enter p.params
  discard (inScope 0 () (stmts body 1))
  if !(← get).dead then implicitReturn
  let code ← onStream (·.freeze?)
  let b ← get
  return {
    proc := { name := p.name, params := b.sig.regParams, ret := b.sig.retReg, code, numRegs := b.regs.high }
    sig := b.sig
    callees := b.callees
    globals := b.globals }

end Build

/-- What became of an attempt to lower a procedure, and what it has asked of its surroundings. -/
structure BuildResult where
  built : Except Stop Built
  asked : List (Symbol × Phase)

/-- Lowers a procedure. If something it refers to is not ready the attempt fails and the next one starts over. -/
def ProcDecl.build (p : ProcDecl) (config : Config) : BuildResult :=
  match p.body, Convention.sig? config.direct p.ins p.outs with
  | none, _ => ⟨.error (.failed (Rejection.noBody p.name).toFailure), []⟩
  | some _, none => ⟨.error (.aborted .fault), []⟩
  | some body, some sig => match (Build.procedure p body).run { config, sig } with
    | .ok r b => ⟨.ok r, b.asked⟩
    | .error (.failed f) b => ⟨.error (.failed (.within ("proc " ++ p.name) f)), b.asked⟩
    | .error (.aborted a) b => ⟨.error (.aborted a), b.asked⟩

end Comptime
