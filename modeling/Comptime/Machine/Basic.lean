import Comptime.Machine.Memory
import Comptime.Machine.Word

/-!
# The machine

A `Machine` holds the procedures and globals that compile-time code can reach, and the limits a run of it has to keep.
-/

namespace Comptime

/-- What a run may use up. -/
structure Limits where
  /-- Instructions, without limit if zero. -/
  maxSteps : Int := 0x1000000
  /-- Frames. -/
  maxDepth : Int := 1024
  /-- Bytes of stack. -/
  stackSize : Int := 0x100000
deriving DecidableEq, Repr, Inhabited

structure Machine where
  limits : Limits := {}
  procs : Array Proc := #[]
  /-- The addresses of globals by name. -/
  symbols : List (String × UInt64) := []
  memory : Memory := {}
  /-- The stack is made when the first procedure is called. -/
  stackMade : Bool := false
  /-- Active frames. -/
  depth : Nat := 0
  /-- Instructions counted in the last call. -/
  steps : Nat := 0
deriving DecidableEq, Repr, Inhabited

namespace Machine

def procIdx? (m : Machine) (name : String) : Option Nat := m.procs.findIdx? (·.name == name)

/-- Makes a procedure callable by name. One of the same name is replaced. -/
def addProc (m : Machine) (p : Proc) : Machine :=
  match m.procIdx? p.name with
  | some i => { m with procs := m.procs.setIfInBounds i p }
  | none => { m with procs := m.procs.push p }

def hasProc (m : Machine) (name : String) : Bool := (m.procIdx? name).isSome

def symbol? (m : Machine) (name : String) : Option UInt64 := m.symbols.lookup name

/-- The address of a global, which is allocated and zeroed when it is first asked for. -/
def global (m : Machine) (name : String) (size align : Int64) : Machine × UInt64 :=
  match m.symbol? name with
  | some a => (m, a)
  | none =>
    let off := alignUp (Int64.ofNat m.memory.globals.size) (max align 1)
    let a := (Int64.ofNat globalBase + off).toUInt64
    ({ m with memory := m.memory.extend (off + size).toInt.toNat, symbols := (name, a) :: m.symbols }, a)

end Machine

end Comptime
