import Comptime.Machine.Basic

/-!
# Running procedures

A run is a machine, the frame that executes, and the frames that wait for it. `step` executes one instruction of the
top frame; `call` steps until the first frame returns or the run is halted. Whatever ends a run, every frame is left on
the way out, so that the machine can be used again.
-/

namespace Comptime

/-- An execution error of compile-time code. -/
inductive Trap where
  | stepLimit
  | callDepth
  | divisionByZero
  | notAnInteger (op : Op)
  | notAFloat (op : Op)
  | access (what : String) (e : BadAccess)
  | stackOverflow
  | undefinedSymbol (name : String)
  | notAProcedure (addr : UInt64)
  | notAnInstruction (kind : String)
  | endOfCode
deriving DecidableEq, Repr

def Trap.message : Trap → String
  | stepLimit => "step limit exceeded"
  | callDepth => "call depth exceeded"
  | divisionByZero => "division by zero"
  | notAnInteger op => "bad integer operation " ++ op.name
  | notAFloat op => "bad float operation " ++ op.name
  | access what e => what ++ ": " ++ e.toFailure.message
  | stackOverflow => (Failure.within "stack overflow" (.known .trap)).message
  | undefinedSymbol n => "undefined symbol " ++ n
  | notAProcedure a => "call of non-procedure " ++ hexLiteral a.toNat
  | notAnInstruction k => "unsupported instruction " ++ k
  | endOfCode => "control reached the end of procedure"

/-- Why a call gave no value. -/
inductive Halt where
  | noSuchProc (name : String)
  | argCount (proc : String) (given wanted : Nat)
  | trapped (proc : String) (pos : Int) (t : Trap)
  /-- The code uses a register it does not have, leads out of itself, or asks for something with no meaning. -/
  | fault
  /-- A run without a step limit went on for longer than can be followed. -/
  | endless
deriving DecidableEq, Repr

/-- What a halted call reports. -/
def Halt.toStop : Halt → Stop
  | noSuchProc n => .failed (.plain ("no such procedure: " ++ n))
  | argCount p given wanted => .failed (.plain s!"{p}: {given} args, want {wanted}")
  | trapped p pos t => .failed (.within s!"{p} at {pos}" (.within t.message (.known .trap)))
  | fault => .aborted .fault
  | endless => .aborted (.refused (some "endless run"))

/-- An activation of a procedure. -/
structure Frame where
  proc : Proc
  regs : Array UInt64
  pos : Int
  /-- The stack pointer to go back to. -/
  base : Nat
deriving DecidableEq, Repr, Inhabited

/-- A frame that waits for a call to return, and where the result goes. -/
structure Waiting where
  frame : Frame
  dst : Reg
  ty : RegType
deriving DecidableEq, Repr, Inhabited

namespace Frame

/-- The value of a register. -/
def reg? (f : Frame) (r : Reg) : Option UInt64 := if 0 ≤ r then f.regs[r.toNat]? else none

/-- Sets a register and goes on to the next instruction. -/
@[inline]
def define? (f : Frame) (r : Reg) (v : UInt64) : Option Frame :=
  if 0 ≤ r ∧ r < f.regs.size then
    some { f with regs := f.regs.setIfInBounds r.toNat v, pos := f.pos + 1 }
  else none

def next (f : Frame) : Frame := { f with pos := f.pos + 1 }

/-- Where a branch goes; `none` if it tests a register that is not there. -/
def target? (f : Frame) (test : Reg) (arms : List Arm) (default : Handle) : Option Int :=
  if arms.isEmpty then some default
  else (f.reg? test).map fun v =>
    match arms.find? (·.value == v.toInt64) with
    | some a => a.target
    | none => default

end Frame

/-- Where a run stands. -/
inductive Run where
  | running (m : Machine) (top : Frame) (waiting : List Waiting)
  | returned (m : Machine) (v : UInt64)
  | halted (m : Machine) (h : Halt)
deriving Inhabited

namespace Machine

/-- Gives the stack back and leaves the frame. -/
def leave (m : Machine) (f : Frame) : Machine :=
  { m with depth := m.depth - 1, memory := { m.memory with sp := f.base } }

/-- Leaves the frames that wait, innermost first, and ends the run. -/
def unwind (m : Machine) (h : Halt) : List Waiting → Run
  | [] => .halted m h
  | w :: ws => unwind (m.leave w.frame) h ws

/-- Ends the run from the top frame. -/
def halt (m : Machine) (f : Frame) (ws : List Waiting) (h : Halt) : Run := (m.leave f).unwind h ws

def trap (m : Machine) (f : Frame) (ws : List Waiting) (t : Trap) : Run :=
  m.halt f ws (.trapped f.proc.name f.pos t)

/-- More registers than any memory holds. -/
def tooManyRegs : Int := 0x200000000000

/-- Starts a procedure. The frames that wait are those it returns to. -/
def enter (m : Machine) (p : Proc) (args : List UInt64) (ws : List Waiting) : Run :=
  if args.length ≠ p.params.length then m.unwind (.argCount p.name args.length p.params.length) ws
  else if m.depth ≥ m.limits.maxDepth then m.unwind (.trapped p.name 0 .callDepth) ws
  else
    let given := (p.params.zipWith Word.canon args).toArray
    let f : Frame := { proc := p, regs := #[], pos := 0, base := m.memory.sp }
    let m := { m with depth := m.depth + 1 }
    if p.numRegs > tooManyRegs then m.halt f ws .fault
    else .running m { f with regs := given ++ Array.replicate (p.numRegs.toNat - given.size) 0 } ws

/-- Returns from the top frame. -/
def finish (m : Machine) (f : Frame) (v : UInt64) (ws : List Waiting) : Run :=
  let m := m.leave f
  match ws with
  | [] => .returned m v
  | w :: ws =>
    if w.dst = noReg then .running m w.frame.next ws
    else match w.frame.define? w.dst (Word.canon w.ty v) with
      | some f => .running m f ws
      | none => m.halt w.frame ws .fault

/-- Goes on with a frame, or ends the run if an access to its registers failed. -/
@[inline]
def continueWith (m : Machine) (f : Frame) (ws : List Waiting) : Option Frame → Run
  | some g => .running m g ws
  | none => m.halt f ws .fault

/-- Ends the run because an operation has no result. -/
def undefined (m : Machine) (f : Frame) (ws : List Waiting) : Word.Undefined → Run
  | .divisionByZero => m.trap f ws .divisionByZero
  | .notAnInteger op => m.trap f ws (.notAnInteger op)
  | .notAFloat op => m.trap f ws (.notAFloat op)
  | .unguarded => m.halt f ws .fault

/-- The procedure a register value addresses. -/
def callee? (m : Machine) (addr : UInt64) : Option Proc :=
  let mask := procBase.toUInt64
  if addr &&& mask = 0 then none else m.procs[(addr &&& ~~~mask).toNat]?

/-- The address of a global or of a procedure. -/
def address? (m : Machine) (sym : String) : Option UInt64 :=
  match m.symbol? sym with
  | some a => some a
  | none => (m.procIdx? sym).map fun i => procBase.toUInt64 ||| i.toUInt64

/-- Loads a value. A type without a size has no value to load. -/
def load (m : Machine) (f : Frame) (ws : List Waiting) (ty : RegType) (dst : Reg) (addr : UInt64) : Run :=
  match m.memory.locate addr (Int64.ofNat ty.size) with
  | .error e => m.trap f ws (.access "load" e)
  | .ok (a, off) =>
    if ty.size = 0 then m.halt f ws .fault
    else
      let v := Memory.ofLittleEndian (m.memory.bytes a off ty.size).toList
      m.continueWith f ws (f.define? dst (Word.canon ty v))

/-- Stores a value. A type without a size has no value to store. -/
def store (m : Machine) (f : Frame) (ws : List Waiting) (ty : RegType) (addr : UInt64) (val : Reg) : Run :=
  match m.memory.locate addr (Int64.ofNat ty.size) with
  | .error e => m.trap f ws (.access "store" e)
  | .ok (a, off) =>
    match f.reg? val with
    | none => m.halt f ws .fault
    | some v =>
      if ty.size = 0 then m.halt f ws .fault
      else .running { m with memory := m.memory.write a off (Memory.littleEndian ty.size v) } f.next ws

/-- Copies bytes as if through a buffer, so that the two stretches may overlap. -/
def copy (m : Machine) (f : Frame) (ws : List Waiting) (dst src : UInt64) (size : Int64) : Run :=
  match m.memory.locate dst size with
  | .error e => m.trap f ws (.access "copy dst" e)
  | .ok (a, off) =>
    match m.memory.read src size with
    | .error e => m.trap f ws (.access "copy src" e)
    | .ok bs => .running { m with memory := m.memory.write a off bs.toList } f.next ws

/-- Fills bytes. The value is looked at only if there is a byte to fill. -/
def fill (m : Machine) (f : Frame) (ws : List Waiting) (dst : UInt64) (val : Reg) (size : Int64) : Run :=
  match m.memory.locate dst size with
  | .error e => m.trap f ws (.access "fill" e)
  | .ok (a, off) =>
    if size = 0 then .running m f.next ws
    else match f.reg? val with
      | none => m.halt f ws .fault
      | some v =>
        let bs := List.replicate size.toInt.toNat v.toUInt8
        .running { m with memory := m.memory.write a off bs } f.next ws

/-- Takes stack memory for the frame. -/
def reserve (m : Machine) (f : Frame) (ws : List Waiting) (dst : Reg) (size align : Int64) : Run :=
  match m.memory.room size align with
  | .overflow => m.trap f ws .stackOverflow
  | .inverted => m.halt f ws .fault
  | .free start stop =>
    continueWith { m with memory := m.memory.take start stop } f ws (f.define? dst (stackBase + start).toUInt64)

/-- Executes one instruction of the top frame. -/
def exec (m : Machine) (f : Frame) (ws : List Waiting) : Instr → Run
  | .hole => m.trap f ws (.notAnInstruction Instr.hole.kind)
  | .region => .running m f.next ws
  | .bin op ty dst l r =>
    match f.reg? l, f.reg? r with
    | some a, some b => match Word.binary op ty a b with
      | .ok v => m.continueWith f ws (f.define? dst v)
      | .error e => m.undefined f ws e
    | _, _ => m.halt f ws .fault
  | .un op ty source dst src =>
    m.continueWith f ws ((f.reg? src).bind fun v => f.define? dst (Word.unary op ty source v))
  | .imm ty dst bits => m.continueWith f ws (f.define? dst (Word.canon ty bits))
  | .load ty dst addr _ => match f.reg? addr with
    | some a => m.load f ws ty dst a
    | none => m.halt f ws .fault
  | .store ty addr val _ => match f.reg? addr with
    | some a => m.store f ws ty a val
    | none => m.halt f ws .fault
  | .copy dst src size _ => match f.reg? dst with
    | none => m.halt f ws .fault
    | some d => match f.reg? src with
      | some s => m.copy f ws d s size
      -- a bad destination is noticed before the missing register
      | none => match m.memory.locate d size with
        | .error e => m.trap f ws (.access "copy dst" e)
        | .ok _ => m.halt f ws .fault
  | .fill dst val size _ => match f.reg? dst with
    | some d => m.fill f ws d val size
    | none => m.halt f ws .fault
  | .reserve dst size align => m.reserve f ws dst size align
  | .addr dst sym => match m.address? sym with
    | some a => m.continueWith f ws (f.define? dst a)
    | none => m.trap f ws (.undefinedSymbol sym)
  | .call ty dst target args => match f.reg? target with
    | none => m.halt f ws .fault
    | some a => match m.callee? a with
      | none => m.trap f ws (.notAProcedure a)
      | some p => match args.mapM f.reg? with
        | some vs => m.enter p vs (⟨f, dst, ty⟩ :: ws)
        | none => m.halt f ws .fault
  | .branch test arms default => m.continueWith f ws ((f.target? test arms default).map fun t => { f with pos := t })
  | .ret _ val =>
    if val = noReg then m.finish f 0 ws
    else match f.reg? val with
      | some v => m.finish f v ws
      | none => m.halt f ws .fault

/-- Counts an instruction and executes it. -/
def step (m : Machine) (f : Frame) (ws : List Waiting) : Run :=
  if f.pos ≥ f.proc.code.size then m.trap { f with pos := f.proc.code.size } ws .endOfCode
  else
    let m := { m with steps := m.steps + 1 }
    if m.limits.maxSteps ≠ 0 ∧ (m.steps : Int) > m.limits.maxSteps then m.trap f ws .stepLimit
    else if f.pos < 0 then m.halt f ws .fault
    else m.exec f ws (f.proc.code.getD f.pos.toNat .hole)

/-- Steps until the run ends, at most `fuel` times. -/
def runFor : Nat → Run → Run
  | 0, r => r
  | fuel + 1, .running m f ws => runFor fuel (m.step f ws)
  | _ + 1, r => r

/-- Enough steps for the run to reach the limit, or more than can be taken if there is none. -/
def Limits.fuel (l : Limits) : Nat := if l.maxSteps = 0 then 0x10000000000000000 else l.maxSteps.toNat + 2

/-- More stack than any memory holds. -/
def tooMuchStack : Int := 0x1000000000000

/-- Makes the stack on first use; `none` if no stack of that size can be made. -/
def withStack? (m : Machine) : Option Machine :=
  if m.stackMade then some m
  else if m.limits.stackSize < 0 ∨ m.limits.stackSize > tooMuchStack then none
  else some { m with
    stackMade := true
    memory := { m.memory with stack := Array.replicate m.limits.stackSize.toNat 0 } }

/-- Runs a named procedure on raw register values. -/
def call (m : Machine) (name : String) (args : List UInt64) : Machine × Except Halt UInt64 :=
  match m.procIdx? name with
  | none => (m, .error (.noSuchProc name))
  | some i => match m.withStack? with
    | none => (m, .error .fault)
    | some m =>
      let m := { m with steps := 0 }
      match runFor (Limits.fuel m.limits) (m.enter (m.procs.getD i default) args []) with
      | .returned m v => (m, .ok v)
      | .halted m h => (m, .error h)
      | .running m f ws => match m.halt f ws .endless with
        | .halted m h => (m, .error h)
        | _ => (m, .error .endless)

end Machine

end Comptime
