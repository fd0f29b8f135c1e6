/-!
# Bytecode

Instructions of a register machine. Registers are numbered and typed by the instruction that uses them; a branch names
its targets by a number that is a handle while code is under construction and a position once it is frozen.
-/

namespace Comptime

/-- The machine type of a register value. -/
inductive RegType where
  | void
  | i8
  | i16
  | i32
  | i64
  | f32
  | f64
  | ptr
  /-- A code that stands for no type. -/
  | other (code : UInt8)
deriving DecidableEq, Repr, Inhabited

namespace RegType

/-- The types in the order of their codes. -/
def all : List RegType := [void, i8, i16, i32, i64, f32, f64, ptr]

def ofCode (c : UInt8) : RegType := all.getD c.toNat (other c)

def name : RegType → String
  | void => "void"
  | i8 => "i8"
  | i16 => "i16"
  | i32 => "i32"
  | i64 => "i64"
  | f32 => "f32"
  | f64 => "f64"
  | ptr => "ptr"
  | other _ => "type(?)"

/-- Bytes of a value in memory. -/
def size : RegType → Nat
  | i8 => 1
  | i16 => 2
  | i32 | f32 => 4
  | i64 | f64 | ptr => 8
  | void | other _ => 0

def isFloat : RegType → Bool
  | f32 | f64 => true
  | _ => false

/-- The integer type of that many bytes, `void` if there is none. -/
def ofSize (n : Int64) : RegType :=
  if n = 1 then i8 else if n = 2 then i16 else if n = 4 then i32 else if n = 8 then i64 else void

end RegType

/-- Operations of binary and unary instructions. -/
inductive Op where
  | bad
  | add | sub | mul | sdiv | udiv | srem | urem
  | and | or | xor | shl | lshr | ashr
  | eq | ne | slt | sle | sgt | sge | ult | ule | ugt | uge
  | fadd | fsub | fmul | fdiv | feq | fne | flt | fle | fgt | fge
  | neg | not | fneg
  | sext | zext | trunc | fext | ftrunc
  | stof | utof | ftos | ftou
  | ptrtoint | inttoptr
  | mov
  /-- A code that stands for no operation. -/
  | other (code : UInt8)
deriving DecidableEq, Repr, Inhabited

namespace Op

/-- The operations in the order of their codes. -/
def all : List Op :=
  [bad,
   add, sub, mul, sdiv, udiv, srem, urem, and, or, xor, shl, lshr, ashr,
   eq, ne, slt, sle, sgt, sge, ult, ule, ugt, uge,
   fadd, fsub, fmul, fdiv, feq, fne, flt, fle, fgt, fge,
   neg, not, fneg, sext, zext, trunc, fext, ftrunc, stof, utof, ftos, ftou, ptrtoint, inttoptr, mov]

def ofCode (c : UInt8) : Op := all.getD c.toNat (other c)

def name : Op → String
  | bad => "bad"
  | add => "add" | sub => "sub" | mul => "mul"
  | sdiv => "sdiv" | udiv => "udiv" | srem => "srem" | urem => "urem"
  | and => "and" | or => "or" | xor => "xor"
  | shl => "shl" | lshr => "lshr" | ashr => "ashr"
  | eq => "eq" | ne => "ne"
  | slt => "slt" | sle => "sle" | sgt => "sgt" | sge => "sge"
  | ult => "ult" | ule => "ule" | ugt => "ugt" | uge => "uge"
  | fadd => "fadd" | fsub => "fsub" | fmul => "fmul" | fdiv => "fdiv"
  | feq => "feq" | fne => "fne" | flt => "flt" | fle => "fle" | fgt => "fgt" | fge => "fge"
  | neg => "neg" | not => "not" | fneg => "fneg"
  | sext => "sext" | zext => "zext" | trunc => "trunc" | fext => "fext" | ftrunc => "ftrunc"
  | stof => "stof" | utof => "utof" | ftos => "ftos" | ftou => "ftou"
  | ptrtoint => "ptrtoint" | inttoptr => "inttoptr"
  | mov => "mov"
  | other _ => "op(?)"

/-- The operation yields a truth value. -/
def isCompare : Op → Bool
  | eq | ne | slt | sle | sgt | sge | ult | ule | ugt | uge
  | feq | fne | flt | fle | fgt | fge => true
  | _ => false

end Op

/-- A numbered register. -/
abbrev Reg := Int

/-- Stands where an instruction has no register. -/
def noReg : Reg := -1

/-- A branch target: the handle of an instruction under construction, or a position in frozen code. -/
abbrev Handle := Int

/-- Stands for a target that is not known yet. -/
def noHandle : Handle := -1

/-- One arm of a branch. -/
structure Arm where
  value : Int64
  target : Handle
deriving DecidableEq, Repr, Inhabited

inductive Instr where
  /-- An entry without an instruction. -/
  | hole
  | bin (op : Op) (ty : RegType) (dst l r : Reg)
  /-- A unary operation, or a conversion from `source` to `ty`. -/
  | un (op : Op) (ty source : RegType) (dst src : Reg)
  /-- A constant; floats are given by their bits. -/
  | imm (ty : RegType) (dst : Reg) (bits : UInt64)
  | load (ty : RegType) (dst addr : Reg) (align : Int64)
  | store (ty : RegType) (addr val : Reg) (align : Int64)
  | copy (dst src : Reg) (size align : Int64)
  /-- Sets bytes to the low byte of `val`. -/
  | fill (dst val : Reg) (size align : Int64)
  /-- Stack memory that belongs to the frame of the procedure. -/
  | reserve (dst : Reg) (size align : Int64)
  /-- The address of a global or of a procedure. -/
  | addr (dst : Reg) (sym : String)
  /-- A call without a register result has `noReg` as its destination. -/
  | call (ty : RegType) (dst target : Reg) (args : List Reg)
  /-- Jumps to the first arm equal to `test`, or to `default`. Without arms it is an unconditional jump. -/
  | branch (test : Reg) (arms : List Arm) (default : Handle)
  /-- The entry of a basic block. -/
  | region
  /-- Returns nothing if `val` is `noReg`. -/
  | ret (ty : RegType) (val : Reg)
deriving DecidableEq, Repr, Inhabited

namespace Instr

/-- The kind of instruction, as diagnostics name it. -/
def kind : Instr → String
  | hole => "<nil>"
  | bin .. => "ir.Bin"
  | un .. => "ir.Un"
  | imm .. => "ir.Imm"
  | load .. => "ir.Load"
  | store .. => "ir.Store"
  | copy .. => "ir.MemCopy"
  | fill .. => "ir.MemFill"
  | reserve .. => "ir.Local"
  | addr .. => "ir.Addr"
  | call .. => "ir.Call"
  | branch .. => "ir.Branch"
  | region => "ir.Region"
  | ret .. => "ir.Ret"

def isRegion : Instr → Bool
  | region => true
  | _ => false

/-- The register an instruction writes, `noReg` if it writes none. A hole is no instruction. -/
def defines? : Instr → Option Reg
  | hole => none
  | bin _ _ dst _ _ | un _ _ _ dst _ | imm _ dst _ | load _ dst _ _ | reserve dst _ _ | addr dst _ | call _ dst _ _ =>
    some dst
  | store .. | copy .. | fill .. | branch .. | region | ret .. => some noReg

/-- Control goes on to the next instruction. -/
def fallsThrough : Instr → Bool
  | branch .. | ret .. => false
  | _ => true

/-- The instruction is a branch that can lead to `pos`. -/
def leadsTo (pos : Int) : Instr → Bool
  | branch _ arms default => default == pos || arms.any (·.target == pos)
  | _ => false

end Instr

/-- A frozen procedure: branch targets are positions in `code`. -/
structure Proc where
  name : String
  /-- The types of the incoming registers, hidden result pointers included. Parameter `i` arrives in register `i`. -/
  params : List RegType
  ret : RegType
  code : Array Instr
  numRegs : Int
deriving DecidableEq, Repr, Inhabited

namespace Proc

/-- The positions of region markers. -/
def regions (p : Proc) : List Nat :=
  (List.range p.code.size).filter fun i => (p.code.getD i .hole).isRegion

/-- The positions control can come from: the instruction before `pos` if it falls through, then every branch there.
`none` if `pos` is beyond the code. -/
def preds? (p : Proc) (pos : Int) : Option (List Int) := do
  let before ←
    if pos > 0 then do
      let x ← p.code[(pos - 1).toNat]?
      pure (if x.fallsThrough then [pos - 1] else [])
    else pure []
  let branches := (List.range p.code.size).filter fun i => (p.code.getD i .hole).leadsTo pos
  return before ++ branches.map Int.ofNat

end Proc

end Comptime
