import Comptime.Lowering.Value

/-!
# Lowering expressions

Operands are evaluated from left to right. A logical operator becomes a pending value: the right operand is tested on
the true path of the left one (`&&`) or on its false path (`||`), so that it is evaluated only if it matters.
-/

namespace Comptime

/-- The instruction of a binary operator on operands of type `t`. -/
def BinaryOp.instr (op : BinaryOp) (t : Ty) : Except Rejection Op :=
  let pick := fun (signed unsigned : Op) (float : Option Op) =>
    if t.isFloat then
      match float with
      | some f => .ok f
      | none => .error (.notOnFloats op)
    else if t.isSigned then .ok signed
    else .ok unsigned
  match op with
  | .add => pick .add .add (some .fadd)
  | .sub => pick .sub .sub (some .fsub)
  | .mul => pick .mul .mul (some .fmul)
  | .div => pick .sdiv .udiv (some .fdiv)
  | .rem => pick .srem .urem none
  | .and => pick .and .and none
  | .or => pick .or .or none
  | .xor => pick .xor .xor none
  | .shl => pick .shl .shl none
  | .shr => pick .ashr .lshr none
  | .eq => pick .eq .eq (some .feq)
  | .ne => pick .ne .ne (some .fne)
  | .lt => pick .slt .ult (some .flt)
  | .le => pick .sle .ule (some .fle)
  | .gt => pick .sgt .ugt (some .fgt)
  | .ge => pick .sge .uge (some .fge)
  | .land | .lor | .other _ => .error (.unsupportedBinary op)

/-- How a register is converted. -/
inductive Conversion where
  /-- The bits stay. -/
  | keep
  /-- A comparison with zero by that operation. -/
  | test (op : Op)
  | via (op : Op)
deriving DecidableEq, Repr

/-- The conversion between two types that travel in registers of types `sr` and `tr`. -/
def Conversion.between? (source target : Ty) (sr tr : RegType) : Option Conversion :=
  match source, target with
  | .bool, .bool => some .keep
  | _, .bool => some (.test (if sr.isFloat then .fne else .ne))
  | .bool, .int _ _ | .int _ _, .int _ _ =>
    if sr.size < tr.size then some (.via (if source.isSigned then .sext else .zext))
    else if tr.size < sr.size then some (.via .trunc)
    else some .keep
  | .bool, .float _ | .int _ _, .float _ => some (.via (if source.isSigned then .stof else .utof))
  | .bool, .ptr _ | .int _ _, .ptr _ => some (.via .inttoptr)
  | .float _, .int _ _ => some (.via (if target.isSigned then .ftos else .ftou))
  | .float _, .float _ =>
    if sr.size < tr.size then some (.via .fext)
    else if tr.size < sr.size then some (.via .ftrunc)
    else some .keep
  | .ptr _, .int _ _ | .func _ _, .int _ _ => some (.via .ptrtoint)
  | .ptr _, .ptr _ | .ptr _, .func _ _ | .func _ _, .ptr _ | .func _ _, .func _ _ => some .keep
  | _, _ => none

namespace Build

/-- Converts a register from one type to another. -/
def convert (r : Reg) (source target : Ty) : Build Reg := do
  let sr ← regType source
  let tr ← regType target
  match Conversion.between? source target sr tr with
  | some .keep => return r
  | some (.test op) => bin op sr r (← imm sr 0)
  | some (.via op) => un op tr sr r
  | none => reject (.noConversion source target)

/-- The type of a part of an expression, which has to be there. -/
def typeOf (x : Expr) : Build Ty := orFault x.ty?

/-- The address some bytes further on. -/
def offset (addr : Reg) (off : Int64) : Build Reg := do
  if off = 0 then return addr
  bin .add .ptr addr (← imm .i64 off.toUInt64)

/-- What a name stands for. -/
def reference : Ref → Build Value
  | .var v => do
    match ← slot? v with
    | some r => return .place v.ty r
    | none =>
      if !v.isGlobal then reject (.undefinedLocal v.name)
      need v.toSymbol
      referVar v
      return .place v.ty (← addrOf v.name)
  | .proc p => do
    need p.toSymbol
    referProc p
    return .reg p.ty (← addrOf p.name)
  | r => reject (.unsupportedRef r.kind)

/-- Tests a further operand on one path of a pending value. `code` lowers the operand. -/
def chain (and : Bool) (p : Pending) (code : Build Value) : Build Pending :=
  insertBefore (if and then p.leaveTrue else p.leaveFalse) do
    match and, ← code with
    | true, .pending _ q =>
      patch ⟨q.leaveFalse, none⟩ p.onFalse
      return { p with onTrue := q.merge }
    | false, .pending _ q =>
      patch ⟨q.leaveTrue, none⟩ p.onTrue
      return { p with onFalse := q.merge }
    | true, v =>
      let (yes, no) ← branchFalse (← value v)
      patch no p.onFalse
      return { p with onTrue := yes }
    | false, v =>
      let r ← value v
      let br ← emit (.branch r [⟨0, noHandle⟩] p.onTrue)
      let no ← region
      patch ⟨br, some 0⟩ no
      return { p with onFalse := no }

/-- A unary operator applied to a lowered operand of type `t`. -/
def applyUnary (ty : Ty) (op : UnaryOp) (t : Ty) (v : Value) : Build Value :=
  match op, v with
  | .not, .pending _ p => return .pending ty p.swap
  | .not, v => do
    let r ← value v
    let z ← imm .i8 0
    return .reg ty (← bin .eq .i8 r z)
  | .neg, v => do
    let rt ← regType t
    return .reg ty (← un (if rt.isFloat then .fneg else .neg) rt rt (← value v))
  | .compl, v => do
    let rt ← regType t
    return .reg ty (← un .not rt rt (← value v))
  | .deref, v => return .place ty (← value v)
  | .addressOf, v => return .reg ty (← address v)
  | op, _ => reject (.unsupportedUnary op)

/-- Memory for the results of a call that come back through pointers, by result index. -/
def resultSlots : List Hidden → Build (List (Nat × Reg))
  | [] => pure []
  | h :: hs => do
    let r ← reserve (← extent h.ty)
    return (h.result, r) :: (← resultSlots hs)

/-- An argument as it is passed: nothing, a register, or a pointer to a copy. -/
def pass (p : Param) (v : Value) : Build (Option Reg) :=
  match p.rule with
  | .ignore => return none
  | .direct => return some (← value v)
  | .indirect => do
    let tmp ← reserve (← extent p.ty)
    assignTo tmp p.ty v
    return some tmp

/-- The results of a call, given the memory of those that come back through pointers and the returned register. -/
def callResults (s : Sig) (slots : List (Nat × Reg)) (dst : Reg) : List Value :=
  s.results.mapIdx fun i t =>
    if i + 1 = s.results.length ∧ s.ret.rule = .direct then .reg t dst
    else if i + 1 = s.results.length ∧ s.ret.rule = .ignore then .none t
    else match slots.lookup i with
      | some r => .place t r
      | none => .none .missing

mutual

/-- Lowers an expression. Besides its value this gives all the results if the expression is a call. -/
def results : Expr → Build (Value × List Value)
  | .absent => reject (.unsupportedExpr Expr.absent.kind)
  | .int t v => do return (.reg t (← imm (← regType t) v.toUInt64), [])
  | .float t b => do return (.reg t (← immFloat (← regType t) b), [])
  | .bool b => do return (.reg .bool (← imm .i8 (if b then 1 else 0)), [])
  | .ident _ r => do return (← reference r, [])
  | .binary t op l r => do
    let lv ← results l
    match op with
    | .land | .lor =>
      let p ← toPending lv.1
      let p ← chain (op == .land) p (do return (← results r).1)
      return (.pending t p, [])
    | _ =>
      let a ← value lv.1
      let rv ← results r
      let b ← value rv.1
      let lt ← typeOf l
      match op.instr lt with
      | .ok i => return (.reg t (← bin i (← regType lt) a b), [])
      | .error e => reject e
  | .unary t op x => do
    let v ← results x
    return (← applyUnary t op (← typeOf x) v.1, [])
  | .call _ fn args => do
    match ← typeOf fn with
    | .func ins outs =>
      if args.length ≠ ins.length then reject (.argCount args.length ins.length)
      let sig ← orFault (Convention.sig? (← get).config.direct ins outs)
      let target ← match fn with
        | .ident _ (.proc p) => do
          need p.toSymbol
          referProc p
          addrOf p.name
        | _ => do value (← results fn).1
      let slots ← resultSlots sig.hidden
      let passed ← arguments args sig.params
      let dst ← call sig.retReg target (slots.map (·.2) ++ passed)
      let all := callResults sig slots dst
      return (all.getLast?.getD (.none .missing), all)
    | t => reject (.notCallable t)
  | .cast t x => do
    let v ← results x
    return (.reg t (← convert (← value v.1) (← typeOf x) t), [])
  | .field _ x name => do
    let v ← results x
    match ← typeOf x with
    | .struct s fs => match Ty.field? fs name with
      | some f => return (.place f.ty (← offset (← address v.1) f.offset), [])
      | none => reject (.noField name s)
    | _ => fault
  | .index t x i => do
    let v ← results x
    let base ← match ← typeOf x with
      | .array _ _ => address v.1
      | .ptr _ => value v.1
      | xt => reject (.notIndexable xt)
    let iv ← results i
    let n ← convert (← value iv.1) (← typeOf i) .s64
    let size ← imm .i64 (← extent t).size.toUInt64
    let off ← bin .mul .i64 n size
    return (.place t (← bin .add .ptr base off), [])
termination_by structural x => x

/-- Lowers arguments and passes each the way its parameter asks for. -/
def arguments : List Expr → List Param → Build (List Reg)
  | x :: xs, p :: ps => do
    let v ← results x
    let r ← pass p v.1
    return r.toList ++ (← arguments xs ps)
  | _, _ => pure []
termination_by structural xs => xs

end

/-- Lowers an expression to its value. -/
def expr (x : Expr) : Build Value := do return (← results x).1

end Build

end Comptime
