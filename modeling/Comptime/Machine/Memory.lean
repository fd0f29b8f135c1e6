import Comptime.Failure
import Comptime.Ty.Basic
import Comptime.Bytecode.Code

/-!
# The memory of the machine

Memory is two areas of bytes, the globals and the stack, each at an address of its own. An access has to lie inside one
of them. Words are stored least significant byte first.
-/

namespace Comptime

/-- The address of the first global. -/
def globalBase : Nat := 0x1000

/-- The address of the bottom of the stack. -/
def stackBase : Nat := 0x10000000

/-- Marks the address of a procedure, which can only be called. -/
def procBase : Nat := 0x4000000000000000

inductive Area where
  | globals
  | stack
deriving DecidableEq, Repr

/-- A stretch of memory that cannot be accessed. -/
inductive BadAccess where
  | negativeSize (size : Int64)
  | outside (addr : UInt64) (size : Int64)
deriving DecidableEq, Repr

/-- A number in base 16 behind `0x`. -/
def hexLiteral (n : Nat) : String := "0x" ++ String.ofList (Nat.toDigits 16 n)

def BadAccess.toFailure : BadAccess → Failure
  | negativeSize n => .within ("negative size " ++ toString n) (.known .trap)
  | outside a n => .within ("bad memory access: " ++ hexLiteral a.toNat ++ " size " ++ toString n) (.known .trap)

/-- Both areas, and how much of the stack is in use. -/
structure Memory where
  globals : Array UInt8 := #[]
  stack : Array UInt8 := #[]
  /-- The first stack byte that no frame uses. -/
  sp : Nat := 0
deriving DecidableEq, Repr, Inhabited

namespace Memory

/-- The offset of an address in an area of `len` bytes at `base`, if `size` bytes fit there. -/
def offset? (base len : Nat) (addr : UInt64) (size : Nat) : Option Nat :=
  let a := addr.toNat
  if base ≤ a ∧ a - base ≤ len ∧ size ≤ len - (a - base) then some (a - base) else none

/-- The area and offset of an access. -/
def locate (m : Memory) (addr : UInt64) (size : Int64) : Except BadAccess (Area × Nat) :=
  if size < 0 then .error (.negativeSize size)
  else
    let n := size.toInt.toNat
    match offset? stackBase m.stack.size addr n with
    | some off => .ok (.stack, off)
    | none => match offset? globalBase m.globals.size addr n with
      | some off => .ok (.globals, off)
      | none => .error (.outside addr size)

def area (m : Memory) : Area → Array UInt8
  | .globals => m.globals
  | .stack => m.stack

/-- The bytes of a located access. -/
def bytes (m : Memory) (a : Area) (off n : Nat) : Array UInt8 := (m.area a).extract off (off + n)

/-- Puts bytes over those from `off` on. -/
def overwrite (xs : Array UInt8) (off : Nat) : List UInt8 → Array UInt8
  | [] => xs
  | b :: bs => overwrite (xs.setIfInBounds off b) (off + 1) bs

def write (m : Memory) (a : Area) (off : Nat) (bs : List UInt8) : Memory :=
  match a with
  | .globals => { m with globals := overwrite m.globals off bs }
  | .stack => { m with stack := overwrite m.stack off bs }

/-- The bytes at an address. -/
def read (m : Memory) (addr : UInt64) (size : Int64) : Except BadAccess (Array UInt8) := do
  let (a, off) ← m.locate addr size
  return m.bytes a off size.toInt.toNat

/-- The `n` low bytes of a word, least significant first. -/
def littleEndian : Nat → UInt64 → List UInt8
  | 0, _ => []
  | n + 1, v => v.toUInt8 :: littleEndian n (v >>> 8)

/-- The word that bytes stand for, least significant first. -/
def ofLittleEndian : List UInt8 → UInt64
  | [] => 0
  | b :: bs => b.toUInt64 ||| ofLittleEndian bs <<< 8

/-- Makes the globals at least `n` bytes long. -/
def extend (m : Memory) (n : Nat) : Memory :=
  { m with globals := m.globals ++ Array.replicate (n - m.globals.size) 0 }

/-- Where stack memory can be taken. -/
inductive Room where
  | free (start stop : Nat)
  | overflow
  /-- The end of the stretch lies before its start. -/
  | inverted
deriving DecidableEq, Repr

/-- The stretch of the stack above everything in use. -/
def room (m : Memory) (size align : Int64) : Room :=
  let off := alignUp (Int64.ofNat m.sp) (max align 1)
  let stop := off + size
  if stop > Int64.ofNat m.stack.size then .overflow
  else if 0 ≤ off ∧ off ≤ stop then .free off.toInt.toNat stop.toInt.toNat
  else .inverted

/-- Takes a stretch of the stack, which is zeroed. -/
def take (m : Memory) (start stop : Nat) : Memory :=
  { m with stack := overwrite m.stack start (List.replicate (stop - start) 0), sp := stop }

end Memory

end Comptime
