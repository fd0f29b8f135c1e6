import Comptime.Bytecode.Stream
import Comptime.Machine.Real
import Comptime.Convention
import Comptime.Lowering.Registers
import Comptime.Lowering.Rejection
import Comptime.Schedule.Phase

/-!
# Building a procedure

The state in which a procedure is lowered, and the operations that put instructions into it. Jumps forward are emitted
with their targets open and patched when the target is there. Stack memory is taken at the entry of the procedure,
wherever in the body the need for it comes up.
-/

namespace Comptime

/-- What lowering asks of its surroundings. -/
structure Config where
  direct : Convention.DirectSize := Convention.standard
  /-- Whether a referenced declaration has come far enough, and if not, why. Without it everything is ready. -/
  ready : Option (Symbol → Phase → Option Failure) := none

/-- A branch target that waits to be patched: an arm of a branch, or its default. -/
structure Edge where
  branch : Nat
  arm : Option Nat
deriving DecidableEq, Repr, Inhabited

def Edge.describe (e : Edge) : String :=
  "\x7b" ++ toString e.branch ++ " " ++ (match e.arm with | none => "-1" | some i => toString i) ++ "\x7d"

/-- Collects the jumps out of a loop or a switch. -/
structure JumpTarget where
  isLoop : Bool
  /-- The number of scopes around it. -/
  depth : Nat
  breaks : List Edge := []
  continues : List Edge := []
  falls : List Edge := []
deriving DecidableEq, Repr, Inhabited

structure Builder where
  config : Config := {}
  stream : Stream := {}
  regs : Registers := {}
  /-- Control cannot get here: the last instruction was a jump or a return. -/
  dead : Bool := false
  /-- The first instruction of the body. Stack memory is taken right in front of it. -/
  anchor : Option Nat := none
  /-- The entry sequence is being emitted. -/
  entering : Bool := false
  sig : Sig
  /-- Pointers for results, by result index. -/
  outs : List (Nat × Reg) := []
  /-- Addresses of variables, by identity. -/
  slots : List (Nat × Reg) := []
  /-- Loops and switches around this point, innermost first. -/
  targets : List JumpTarget := []
  /-- While deferred statements run: no scope has been opened since, so that what is deferred now is seen by the scopes
  that are still to be left. -/
  linked : Bool := false
  callees : List ProcRef := []
  globals : List Variable := []
  /-- What has been asked of the surroundings. -/
  asked : List (Symbol × Phase) := []

abbrev Build := EStateM Stop Builder

namespace Build

def reject {α : Type} (r : Rejection) : Build α := throw (.failed r.toFailure)

def bug {α : Type} (text : String) : Build α := throw (.aborted (.bug text))

def fault {α : Type} : Build α := throw (.aborted .fault)

def orFault {α : Type} : Option α → Build α
  | some a => pure a
  | none => fault

def extent (t : Ty) : Build Extent := orFault t.extent?

def regType (t : Ty) : Build RegType := orFault t.regType?

/-! ## The stream -/

def onStream {α : Type} (f : Stream → Except Stream.Misuse α) : Build α := do
  match f (← get).stream with
  | .ok a => pure a
  | .error e => throw (.aborted e.toAbort)

def modifyStream (f : Stream → Except Stream.Misuse Stream) : Build Unit := do
  let s ← onStream f
  modify fun b => { b with stream := s }

/-- Emits without touching anything but the stream. -/
def emitRaw (x : Instr) : Build Nat := do
  let (s, h) := (← get).stream.emit x
  modify fun b => { b with stream := s }
  return h

/-- Code after an instruction cannot be reached, given whether it could be before. -/
def deadAfter (dead : Bool) : Instr → Bool
  | .branch .. | .ret .. => true
  | .region => false
  | _ => dead

/-- Emits an instruction of the procedure. The first one of the body becomes the anchor. -/
def emit (x : Instr) : Build Nat := do
  let h ← emitRaw x
  modify fun b => { b with
    anchor := if b.anchor.isNone && !b.entering then some h else b.anchor
    dead := deadAfter b.dead x }
  return h

/-- Emits code in front of an instruction. It does not change whether code at the end can be reached. -/
def insertBefore {α : Type} (h : Nat) (code : Build α) : Build α := do
  modifyStream (·.openBefore? h)
  let dead := (← get).dead
  modify fun b => { b with dead := false }
  let a ← code
  modifyStream (·.commit?)
  modify fun b => { b with dead }
  return a

/-! ## Registers -/

def allocReg : Build Reg := do
  let (regs, r) := (← get).regs.alloc
  modify fun b => { b with regs }
  return r

def allocPermanent : Build Reg := do
  let (regs, r) := (← get).regs.allocPermanent
  modify fun b => { b with regs }
  return r

def reclaim : Build Unit := modify fun b => { b with regs := b.regs.reclaim }

/-- Keeps every register in use while `code` is emitted. -/
def holding {α : Type} (code : Build α) : Build α := do
  modify fun b => { b with regs := { b.regs with hold := b.regs.hold + 1 } }
  let a ← code
  modify fun b => { b with regs := { b.regs with hold := b.regs.hold - 1 } }
  return a

/-! ## Instructions -/

/-- Emits an instruction that defines a new register. -/
def define (x : Reg → Instr) : Build Reg := do
  let dst ← allocReg
  discard (emit (x dst))
  return dst

def bin (op : Op) (t : RegType) (l r : Reg) : Build Reg := define (.bin op t · l r)

def un (op : Op) (t source : RegType) (src : Reg) : Build Reg := define (.un op t source · src)

def imm (t : RegType) (bits : UInt64) : Build Reg := define (.imm t · bits)

/-- A float constant, given by the bits of its 64-bit format. -/
def immFloat (t : RegType) (bits : UInt64) : Build Reg :=
  imm t (if t = .f32 then (Real.narrow bits).toUInt64 else bits)

def load (t : RegType) (addr : Reg) (align : Int64) : Build Reg := define (.load t · addr align)

def store (t : RegType) (addr val : Reg) (align : Int64) : Build Unit := discard (emit (.store t addr val align))

def copy (dst src : Reg) (size align : Int64) : Build Unit := discard (emit (.copy dst src size align))

def addrOf (sym : String) : Build Reg := define (.addr · sym)

/-- Takes stack memory at the entry of the procedure. Its address stays in a permanent register. -/
def reserve (e : Extent) : Build Reg := do
  let dst ← allocPermanent
  let x := Instr.reserve dst e.size e.align
  match (← get).anchor with
  | none => discard (emitRaw x)
  | some anchor =>
    modifyStream (·.openBefore? anchor)
    discard (emitRaw x)
    modifyStream (·.commit?)
  return dst

/-- A call. One that returns `void` has no result register. -/
def call (t : RegType) (target : Reg) (args : List Reg) : Build Reg := do
  let dst ← if t = .void then pure noReg else allocReg
  discard (emit (.call t dst target args))
  return dst

def region : Build Nat := emit .region

def ret (t : RegType) (val : Reg) : Build Unit := discard (emit (.ret t val))

/-- A jump whose target is open. -/
def jump : Build Edge := do
  let h ← emit (.branch noReg [] noHandle)
  return ⟨h, none⟩

def jumpTo (target : Nat) : Build Unit := discard (emit (.branch noReg [] target))

/-- Sets an open target. -/
def patch (e : Edge) (target : Nat) : Build Unit := do
  let found ← onStream (·.at? e.branch)
  match found with
  | .branch test arms default =>
    let there ← onStream (·.at? target)
    if !there.isRegion then
      bug ("patch " ++ e.describe ++ ": target " ++ toString target ++ " is not a region: " ++ there.kind)
    match e.arm with
    | none => modifyStream (·.set? e.branch (.branch test arms target))
    | some i =>
      if i < arms.length then
        modifyStream (·.set? e.branch (.branch test (arms.modify i fun a => { a with target }) default))
      else bug ("patch " ++ e.describe ++ ": no such case slot")
  | x => bug ("patch " ++ e.describe ++ ": not a branch: " ++ x.kind)

def patchAll : List Edge → Nat → Build Unit
  | [], _ => pure ()
  | e :: es, target => do patch e target; patchAll es target

/-- Branches on a register and goes on where it is not zero. Returns that place, and the edge taken if it is zero. -/
def branchFalse (test : Reg) : Build (Nat × Edge) := do
  let br ← emit (.branch test [⟨0, noHandle⟩] noHandle)
  let yes ← region
  patch ⟨br, none⟩ yes
  return (yes, ⟨br, some 0⟩)

/-- A branch with an open target for every value. -/
def switch (test : Reg) (values : List Int64) : Build Nat :=
  emit (.branch test (values.map fun v => ⟨v, noHandle⟩) noHandle)

/-! ## References -/

/-- Asks whether a referenced declaration has its size. -/
def need (s : Symbol) : Build Unit := do
  match (← get).config.ready with
  | none => pure ()
  | some ready =>
    modify fun b => { b with asked := b.asked ++ [(s, .sizeComputed)] }
    match ready s .sizeComputed with
    | none => pure ()
    | some f => throw (.failed f)

/-- Notes a called or mentioned procedure, once. -/
def referProc (p : ProcRef) : Build Unit := modify fun b =>
  if b.callees.any (·.id == p.id) then b else { b with callees := b.callees ++ [p] }

/-- Notes a mentioned global, once. -/
def referVar (v : Variable) : Build Unit := modify fun b =>
  if b.globals.any (·.id == v.id) then b else { b with globals := b.globals ++ [v] }

def slot? (v : Variable) : Build (Option Reg) := return (← get).slots.lookup v.id

def bindSlot (v : Variable) (r : Reg) : Build Unit := modify fun b => { b with slots := (v.id, r) :: b.slots }

end Build

end Comptime
