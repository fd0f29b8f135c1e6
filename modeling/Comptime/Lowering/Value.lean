import Comptime.Lowering.Builder

/-!
# Values under construction

What lowering an expression gives: a place in memory, a register, or a truth value that so far is only a pair of paths.
Such a pending value is laid out as

    onTrue:  ...; leaveTrue:  jump to merge
    onFalse: ...; leaveFalse: jump to merge
    merge:

so that a further test can be put in front of either jump, and turning it into a register means to put a constant in
front of both.
-/

namespace Comptime

/-- A truth value held as two paths. -/
structure Pending where
  onTrue : Nat
  onFalse : Nat
  leaveTrue : Nat
  leaveFalse : Nat
  merge : Nat
deriving DecidableEq, Repr, Inhabited

/-- The negated value. -/
def Pending.swap (p : Pending) : Pending :=
  { p with onTrue := p.onFalse, onFalse := p.onTrue, leaveTrue := p.leaveFalse, leaveFalse := p.leaveTrue }

inductive Value where
  | none (ty : Ty)
  /-- A place in memory, by the register that holds its address. -/
  | place (ty : Ty) (addr : Reg)
  /-- A register. A compound in a register is held as an integer of its size. -/
  | reg (ty : Ty) (r : Reg)
  | pending (ty : Ty) (p : Pending)
deriving Repr

instance : Inhabited Value := ⟨.none .missing⟩

def Value.ty : Value → Ty
  | none t | place t _ | reg t _ | pending t _ => t

namespace Build

/-- Starts a pending value that tests a register. -/
def startPending (r : Reg) : Build Pending := do
  let (onTrue, no) ← branchFalse r
  let leaveTrue ← jump
  let onFalse ← region
  let leaveFalse ← jump
  let merge ← region
  patch no onFalse
  patch leaveTrue merge
  patch leaveFalse merge
  return { onTrue, onFalse, leaveTrue := leaveTrue.branch, leaveFalse := leaveFalse.branch, merge }

/-- Picks a register and sets it to 1 on the true path and to 0 on the false path. -/
def materialize (p : Pending) : Build Reg := do
  let dst ← allocReg
  insertBefore p.leaveTrue (discard (emit (.imm .i8 dst 1)))
  insertBefore p.leaveFalse (discard (emit (.imm .i8 dst 0)))
  return dst

/-- A register that holds the value. -/
def value : Value → Build Reg
  | .reg _ r => pure r
  | .place t addr => do
    let rt ← regType t
    if rt = .void then bug (t.name ++ " does not fit a register")
    load rt addr (← extent t).align
  | .pending _ p => materialize p
  | .none _ => bug "no value"

def toPending : Value → Build Pending
  | .pending _ p => pure p
  | v => do startPending (← value v)

/-- A register that holds the address of the value, which is put into memory if it is not there. -/
def address : Value → Build Reg
  | .place _ addr => pure addr
  | v => do
    let r ← value v
    let e ← extent v.ty
    let tmp ← reserve e
    store (← regType v.ty) tmp r e.align
    return tmp

/-- Writes a value of type `t` to an address. -/
def assignTo (dst : Reg) (t : Ty) (v : Value) : Build Unit := do
  let e ← extent t
  if e.size = 0 then return
  match t.isScalar, v with
  | false, .place _ src => copy dst src e.size e.align
  | _, _ =>
    let rt ← regType t
    if rt = .void then bug ("store " ++ t.name ++ " from a register")
    store rt dst (← value v) e.align

/-- Writes zeros over a value of type `t`. -/
def zero (dst : Reg) (t : Ty) : Build Unit := do
  let e ← extent t
  if e.size = 0 then return
  if t.isScalar then
    let rt ← regType t
    store rt dst (← imm rt 0) e.align
  else
    let byte ← imm .i8 0
    discard (emit (.fill dst byte e.size e.align))

/-- A copy that later stores do not affect. -/
def detach (v : Value) : Build Value :=
  match v with
  | .place t src => do
    if t.isScalar || (← regType t) != .void then return .reg t (← value v)
    let e ← extent t
    let tmp ← reserve e
    copy tmp src e.size e.align
    return .place t tmp
  | _ => return .reg v.ty (← value v)

end Build

end Comptime
