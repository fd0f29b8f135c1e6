import Comptime.Bitset
import Comptime.Bytecode.Code

/-!
# Register allocation

Registers are handed out in increasing order and all of them are taken back at the end of a statement, but for the
permanent ones, which stay in use until the end of the procedure.
-/

namespace Comptime

structure Registers where
  /-- No register below this one is free. -/
  next : Nat := 0
  /-- No register from this one on has ever been used. -/
  high : Nat := 0
  permanent : Bitset := {}
  /-- While positive nothing is taken back. -/
  hold : Nat := 0
deriving DecidableEq, Repr, Inhabited

namespace Registers

/-- The registers at the start of a procedure whose parameters arrive in the first `n`. -/
def ofParams (n : Nat) : Registers := { next := n, high := n }

/-- Marks a register as permanent. -/
def keep (s : Registers) (r : Nat) : Registers := { s with permanent := (s.permanent.insert r).1 }

/-- The next free register. -/
def alloc (s : Registers) : Registers × Nat :=
  let r := s.permanent.nextClear s.next
  ({ s with next := r + 1, high := max s.high (r + 1) }, r)

/-- A permanent register. It has not been used before, so its definition may be moved above code that is already
there. -/
def allocPermanent (s : Registers) : Registers × Nat :=
  (keep { s with high := s.high + 1 } s.high, s.high)

/-- Takes back what a statement used. -/
def reclaim (s : Registers) : Registers :=
  if s.hold = 0 then { s with next := s.permanent.nextClear 0 } else s

end Registers

end Comptime
