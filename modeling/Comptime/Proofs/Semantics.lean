import Comptime.Lowering.Expr
import Comptime.Proofs.Machine.Watch

/-!
# What procedure bodies do

A big-step semantics of statements and expressions, in terms of the deeds a body does and what it gets for them. A loop
is followed for a given number of rounds; a body that goes on for longer is `endless`. `exec` gives the way control
leaves a statement, and a list of statements runs what was deferred in it, last first, however control leaves it.

Where memory for an intermediate value is, is not said here: the first deed that names its address tells (`Setting.fresh`).
A result whose type has no register is not there, and whatever uses it has no result either.
-/

namespace Comptime

/-! ## Evaluation -/

/-- Why an evaluation has no result. -/
inductive Halted where
  /-- A deed got no answer, or an operation has no result. -/
  | stuck
  /-- A loop went on for longer than it was followed. -/
  | endless
deriving DecidableEq, Repr

/-- Where a result of a procedure goes. -/
inductive Outlet where
  | nowhere
  | register
  | memory (ty : Ty) (addr : UInt64)

/-- What a body meets with. -/
structure Setting where
  direct : Convention.DirectSize
  /-- What it gets for its deeds, by their number. -/
  given : Nat → Option UInt64
  /-- The addresses its deeds name, by the number of the deed and their number in it. -/
  named : Nat → Nat → Option UInt64
  /-- The addresses of its parameters and locals, by identity. -/
  home : Nat → Option UInt64
  /-- The addresses of globals and procedures, by name. -/
  address : String → Option UInt64
  /-- Where its results go. -/
  outlets : List Outlet
  /-- For how many rounds a loop is followed. -/
  rounds : Nat

/-- An evaluation, with the deeds done so far. -/
abbrev Eval := EStateM Halted (List Deed)

namespace Eval

def demand {α : Type} : Option α → Eval α
  | some a => pure a
  | none => throw .stuck

/-- The result of an operation that may have none. -/
def result : Except Word.Undefined UInt64 → Eval UInt64
  | .ok v => pure v
  | .error _ => throw .stuck

/-- Repeats until there is a result, at most so many times. -/
def repeated {α : Type} : Nat → Eval (Option α) → Eval α
  | 0, _ => throw .endless
  | n + 1, x => do
    match ← x with
    | some a => return a
    | none => repeated n x

end Eval

namespace Setting

/-- Does something and gets an answer. -/
def perform (S : Setting) (d : Deed) : Eval UInt64 := do
  let done ← get
  set (done ++ [d])
  Eval.demand (S.given done.length)

/-- The address of memory that the next deed names at place `k`. -/
def fresh (S : Setting) (k : Nat) : Eval UInt64 := do
  let done ← get
  Eval.demand (S.named done.length k)

/-- The addresses that the next deed names at the first places. -/
def freshAll (S : Setting) (n : Nat) : Eval (List UInt64) := do
  let done ← get
  Eval.demand ((List.range n).mapM (S.named done.length))

end Setting

open Eval

/-! ## Operands -/

/-- What an expression stands for. -/
inductive Operand where
  | place (ty : Ty) (addr : Option UInt64)
  | word (ty : Ty) (v : Option UInt64)
  | nothing (ty : Ty)
deriving Repr

namespace Operand

def ty : Operand → Ty
  | place t _ | word t _ | nothing t => t

/-- The value of an operand, which is read if it is in memory. -/
def value (S : Setting) : Operand → Eval (Option UInt64)
  | place t a => do return some (← S.perform (.load (← demand t.regType?) (← demand a)))
  | word _ v => return v
  | nothing _ => throw .stuck

/-- The address of an operand, which is put into memory if it is not there. -/
def address (S : Setting) : Operand → Eval (Option UInt64)
  | place _ a => return a
  | o => do
    let v ← o.value S
    let a ← S.fresh 0
    discard (S.perform (.store (← demand o.ty.regType?) a (← demand v)))
    return some a

/-- Writes an operand to memory, as a value of type `t`. -/
def assign (S : Setting) (dst : Option UInt64) (t : Ty) (o : Operand) : Eval Unit := do
  let e ← demand t.extent?
  if e.size = 0 then return
  match t.isScalar, o with
  | false, .place _ src => discard (S.perform (.copy (← demand dst) (← demand src) e.size))
  | _, _ =>
    let v ← o.value S
    discard (S.perform (.store (← demand t.regType?) (← demand dst) (← demand v)))

/-- Writes zeros over a value of type `t`. -/
def clear (S : Setting) (dst : UInt64) (t : Ty) : Eval Unit := do
  let e ← demand t.extent?
  if e.size = 0 then return
  if t.isScalar then discard (S.perform (.store (← demand t.regType?) dst 0))
  else discard (S.perform (.fill dst 0 e.size))

/-- Writes operands to memory, one after the other. -/
def assignAll (S : Setting) : List (Ty × Option UInt64) → List Operand → Eval Unit
  | (t, dst) :: targets, o :: os => do
    o.assign S dst t
    assignAll S targets os
  | _, _ => return

/-- The value of an operand apart from where it is: in a word, or copied to memory of its own. -/
def detach (S : Setting) : Operand → Eval Operand
  | place t src => do
    let rt ← demand t.regType?
    if t.isScalar ∨ rt ≠ .void then return .word t (← (place t src).value S)
    let e ← demand t.extent?
    let a ← S.fresh 0
    discard (S.perform (.copy a (← demand src) e.size))
    return .place t (some a)
  | o => do return .word o.ty (← o.value S)

/-- Puts results where they go, one after the other. Gives the word that is returned, which is `v` so far. -/
def deliver (S : Setting) : List Outlet → List Operand → (v : UInt64) → Eval UInt64
  | .nowhere :: outs, _ :: os, v => deliver S outs os v
  | .register :: outs, o :: os, _ => do deliver S outs os ((← o.value S).getD 0)
  | .memory t a :: outs, o :: os, v => do
    o.assign S (some a) t
    deliver S outs os v
  | _, _, v => return v

/-- An operand as it is passed to a parameter: not at all, as a word, or as the address of a copy. -/
def pass (S : Setting) (p : Param) (o : Operand) : Eval (List (Option UInt64)) :=
  match p.rule with
  | .ignore => return []
  | .direct => return [← o.value S]
  | .indirect => do
    let a ← S.fresh 0
    o.assign S (some a) p.ty
    return [some a]

end Operand

/-- The results of a call, given the memory of those that come back through pointers and the returned word. -/
def Sig.operands (s : Sig) (slots : List (Nat × UInt64)) (v : UInt64) : List Operand :=
  s.results.mapIdx fun i t =>
    if i + 1 = s.results.length ∧ s.ret.rule = .direct then .word t (if s.retReg = .void then none else some v)
    else if i + 1 = s.results.length ∧ s.ret.rule = .ignore then .nothing t
    else match slots.lookup i with
      | some a => .place t (some a)
      | none => .nothing .missing

namespace Word

/-- A word of one type as a word of another. -/
def convert (source target : Ty) (v : Option UInt64) : Eval (Option UInt64) := do
  let sr ← demand source.regType?
  let tr ← demand target.regType?
  match Conversion.between? source target sr tr with
  | some .keep => return v
  | some (.test op) => return some (← result (Word.binary op sr (← demand v) (Word.canon sr 0)))
  | some (.via op) => return some (Word.unary op tr sr (← demand v))
  | none => throw .stuck

/-- The address some bytes further on. -/
def offset (a : Option UInt64) (off : Int64) : Eval (Option UInt64) := do
  if off = 0 then return a
  return some ((← demand a) + off.toUInt64)

end Word

/-! ## Expressions -/

namespace Expr

/-- What a name stands for. -/
def refer (S : Setting) : Ref → Eval Operand
  | .var v => match S.home v.id with
    | some a => return .place v.ty (some a)
    | none => do return .place v.ty (some (← demand (S.address v.name)))
  | .proc p => do return .word p.ty (some (← demand (S.address p.name)))
  | _ => throw .stuck

/-- A unary operator applied to an operand of type `t`. -/
def applyUnary (S : Setting) (ty : Ty) (op : UnaryOp) (t : Ty) (x : Operand) : Eval Operand :=
  match op with
  | .not => do
    let v ← x.value S
    return .word ty (some (Word.flag ((← demand v) == 0)))
  | .neg => do
    let rt ← demand t.regType?
    let v ← x.value S
    return .word ty (some (Word.unary (if rt.isFloat then .fneg else .neg) rt rt (← demand v)))
  | .compl => do
    let rt ← demand t.regType?
    let v ← x.value S
    return .word ty (some (Word.unary .not rt rt (← demand v)))
  | .deref => do return .place ty (← x.value S)
  | .addressOf => do return .word ty (← x.address S)
  | .other _ => throw .stuck

/-- Calls a procedure of type `t`, given how it and its arguments are evaluated. Gives its results. -/
def invoke (S : Setting) (t : Option Ty) (fn : Eval Operand) (args : List Param → Eval (List (Option UInt64))) :
    Eval (List Operand) :=
  match t with
  | some (.func ins outs) => do
    let sig ← demand (Convention.sig? S.direct ins outs)
    let target ← (← fn).value S
    let passed ← args sig.params
    let slots ← S.freshAll sig.hidden.length
    let v ← S.perform (.call (← demand target) (slots ++ (← demand (passed.mapM id))))
    return sig.operands ((sig.hidden.map (·.result)).zip slots) v
  | _ => throw .stuck

mutual

/-- Evaluates an expression. Operands are evaluated from left to right, and the right operand of a logical operator only if
the left one does not decide. -/
def eval (S : Setting) : Expr → Eval Operand
  | .absent => throw .stuck
  | .int t v => do return .word t (some (Word.canon (← demand t.regType?) v.toUInt64))
  | .float t b => do
    let rt ← demand t.regType?
    return .word t (some (Word.canon rt (if rt = .f32 then (Real.narrow b).toUInt64 else b)))
  | .bool b => return .word .bool (some (Word.flag b))
  | .ident _ r => refer S r
  | .binary t op l r => do
    let a ← (← eval S l).value S
    match op with
    | .land =>
      if (← demand a) = 0 then return .word t (some 0)
      let b ← (← eval S r).value S
      return .word t (some (Word.flag ((← demand b) != 0)))
    | .lor =>
      if (← demand a) ≠ 0 then return .word t (some 1)
      let b ← (← eval S r).value S
      return .word t (some (Word.flag ((← demand b) != 0)))
    | _ =>
      let b ← (← eval S r).value S
      let lt ← demand l.ty?
      match op.instr lt with
      | .ok i => return .word t (some (← result (Word.binary i (← demand lt.regType?) (← demand a) (← demand b))))
      | .error _ => throw .stuck
  | .unary t op x => do
    let o ← eval S x
    applyUnary S t op (← demand x.ty?) o
  | .call _ fn args => do
    return (← invoke S fn.ty? (eval S fn) fun ps => evalAll S args ps).getLast?.getD (.nothing .missing)
  | .cast t x => do
    let v ← (← eval S x).value S
    return .word t (← Word.convert (← demand x.ty?) t v)
  | .field _ x name => do
    let o ← eval S x
    match x.ty? with
    | some (.struct _ fs) => match Ty.field? fs name with
      | some f => return .place f.ty (← Word.offset (← o.address S) f.offset)
      | none => throw .stuck
    | _ => throw .stuck
  | .index t x i => do
    let o ← eval S x
    let base ← match x.ty? with
      | some (.array _ _) => o.address S
      | _ => o.value S
    let v ← (← eval S i).value S
    let n ← Word.convert (← demand i.ty?) .s64 v
    let e ← demand t.extent?
    let off := (← demand n) * e.size.toUInt64
    return .place t (some ((← demand base) + off))

/-- Evaluates arguments and passes each the way its parameter asks for. -/
def evalAll (S : Setting) : List Expr → List Param → Eval (List (Option UInt64))
  | x :: xs, p :: ps => do
    let o ← eval S x
    let v ← o.pass S p
    return v ++ (← evalAll S xs ps)
  | _, _ => return []

end

/-- All results of a call. -/
def results (S : Setting) : Expr → Eval (List Operand)
  | .call _ fn args => invoke S fn.ty? (fn.eval S) (evalAll S args)
  | _ => throw .stuck

/-- Evaluates expressions one after the other. -/
def operands (S : Setting) : List Expr → Eval (List Operand)
  | [] => return []
  | x :: xs => do
    let o ← x.eval S
    return o :: (← operands S xs)

/-- Evaluates expressions one after the other and takes their values. -/
def detached (S : Setting) : List Expr → Eval (List Operand)
  | [] => return []
  | x :: xs => do
    let o ← (← x.eval S).detach S
    return o :: (← detached S xs)

/-- The places that expressions stand for. -/
def places (S : Setting) : List Expr → Eval (List (Ty × Option UInt64))
  | [] => return []
  | x :: xs => do
    match ← x.eval S with
    | .place t a => return (t, a) :: (← places S xs)
    | _ => throw .stuck

/-- What is assigned to `n` places: one value, the results of one call, or as many values, all of which are taken before
anything is written. -/
def assigned (S : Setting) (n : Nat) : List Expr → Eval (List Operand)
  | [x] => if n = 1 then operands S [x] else x.results S
  | xs => detached S xs

/-- What is returned as `n` results: the results of one call, or one value for each. -/
def returned (S : Setting) (n : Nat) : List Expr → Eval (List Operand)
  | [x] => if n > 1 then x.results S else operands S [x]
  | xs => operands S xs

/-- The value of an expression. -/
def value (S : Setting) (x : Expr) : Eval (Option UInt64) := do (← x.eval S).value S

/-- The truth of a condition. One that is missing holds. -/
def holds (S : Setting) (x : Expr) : Eval Bool :=
  if x.isAbsent then return true else do return (← demand (← x.value S)) != 0

end Expr

/-! ## Statements -/

/-- How control leaves a statement. -/
inductive Exit where
  | done
  | broke
  | continued
  | fell
  | returned (v : UInt64)
deriving DecidableEq, Repr

namespace Exit

/-- How control leaves a loop whose body it left so; not at all if the loop goes on. -/
def ofLoop : Exit → Option Exit
  | done | continued => none
  | broke => some done
  | fell => some fell
  | returned v => some (returned v)

/-- How control leaves a switch whose cases it left so. -/
def ofSwitch : Exit → Exit
  | done | broke | fell => done
  | continued => continued
  | returned v => returned v

end Exit

namespace Case

variable {α : Type}

/-- The default case of a switch, the last one if there are several. -/
def default? (cs : List (Case α)) : Option Nat :=
  (cs.reverse.findIdx? fun c => c.values.isEmpty).map fun i => cs.length - 1 - i

/-- The case that a value leads to: the first one that lists it, or else the default case. The value is looked at only if
some case lists one. -/
def select (cs : List (Case α)) (v : Option UInt64) : Eval (Option Nat) := do
  if cs.all (·.values.isEmpty) then return default? cs
  let v ← demand v
  return (cs.findIdx? fun c => v.toInt64 ∈ c.values).or (default? cs)

end Case

namespace Stmt

/-- Runs deferred statements, the last one first in the list. -/
def runAll : List (Eval Exit) → Eval Unit
  | [] => pure ()
  | d :: ds => do
    discard d
    runAll ds

/-- Leaves a scope, given how control leaves its statements and what they have deferred. -/
def closing (x : Eval (Exit × List (Eval Exit))) : Eval Exit := do
  let (e, ds) ← x
  runAll ds
  return e

/-- Runs cases one after the other as long as control falls through. -/
def fallFrom : List (Eval Exit) → Eval Exit
  | [] => return .done
  | c :: cs => do
    match ← c with
    | .fell => fallFrom cs
    | e => return e

mutual

/-- Executes a statement. Deferring it is not part of it. -/
def exec (S : Setting) : Stmt → Eval Exit
  | .absent => return .done
  | .block l => closing (execList S l [])
  | .expr x => do
    discard (x.eval S)
    return .done
  | .decl v init => do
    let a ← demand (S.home v.id)
    if init.isAbsent then Operand.clear S a v.ty
    else
      let o ← init.eval S
      o.assign S (some a) v.ty
    return .done
  | .assign none lhs rhs => do
    let targets ← Expr.places S lhs
    let os ← Expr.assigned S lhs.length rhs
    Operand.assignAll S targets os
    return .done
  | .assign (some op) [l] [x] => do
    match ← l.eval S with
    | .place t a =>
      let u ← (Operand.place t a).value S
      let v ← x.value S
      match op.instr t with
      | .ok i =>
        let rt ← demand t.regType?
        let y ← result (Word.binary i rt (← demand u) (← demand v))
        discard (S.perform (.store rt (← demand a) y))
        return .done
      | .error _ => throw .stuck
    | _ => throw .stuck
  | .assign (some _) _ _ => throw .stuck
  | .cond test yes no => do
    if ← test.holds S then closing (execList S yes []) else exec S no
  | .loop init test post body => do
    discard (exec S init)
    repeated S.rounds do
      if ← test.holds S then
        match (← closing (execList S body [])).ofLoop with
        | none =>
          discard (exec S post)
          return none
        | some e => return some e
      else return some .done
  | .whileDo test body => repeated S.rounds do
    if ← test.holds S then return (← closing (execList S body [])).ofLoop else return some .done
  | .doWhile test body => repeated S.rounds do
    match (← closing (execList S body [])).ofLoop with
    | none => return if ← test.holds S then none else some .done
    | some e => return some e
  | .switch tag cs => do
    let v ← tag.value S
    match ← Case.select cs v with
    | some i => return (← fallFrom ((execCases S cs).drop i)).ofSwitch
    | none => return .done
  | .breakOut => return .broke
  | .continueLoop => return .continued
  | .fallthrough => return .fell
  | .ret xs => do
    let os ← Expr.returned S S.outlets.length xs
    return .returned (← Operand.deliver S S.outlets os 0)
  | .defer _ => return .done

/-- Executes statements one after the other, where `ds` has been deferred so far, last first. -/
def execList (S : Setting) : List Stmt → (ds : List (Eval Exit)) → Eval (Exit × List (Eval Exit))
  | [], ds => return (.done, ds)
  | x :: xs, ds => match x with
    | .defer d => execList S xs (exec S d :: ds)
    | x => do
      match ← exec S x with
      | .done => execList S xs ds
      | e => return (e, ds)

/-- The bodies of the cases of a switch. -/
def execCases (S : Setting) : List (Case Stmt) → List (Eval Exit)
  | [] => []
  | c :: cs => closing (execList S c.body []) :: execCases S cs

end

/-- Executes the body of a procedure. One whose end is reached returns zero. -/
def execBody (S : Setting) (body : List Stmt) : Eval UInt64 := do
  match ← closing (execList S body []) with
  | .returned v => return v
  | _ => return 0

end Stmt

end Comptime
