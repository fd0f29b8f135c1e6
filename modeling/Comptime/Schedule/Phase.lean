import Comptime.Failure
import Comptime.Text.Quoted

/-!
# Phases

Every declaration goes through the same phases of compilation, in order. A phase is its rank in that order, so that
ranks that stand for no phase can be compared with those that do.
-/

namespace Comptime

structure Phase where
  rank : Int
deriving DecidableEq, Repr, Inhabited

namespace Phase

def uninitialized : Phase := ⟨0⟩
def parsed : Phase := ⟨1⟩
def typeChecked : Phase := ⟨2⟩
def sizeComputed : Phase := ⟨3⟩
def bytecodeBuilt : Phase := ⟨4⟩
def run : Phase := ⟨5⟩

/-- The names of the phases by rank. -/
def names : List String := ["uninitialized", "parsed", "typechecked", "sizecomputed", "bytecodebuilt", "run"]

instance : LE Phase := ⟨fun a b => a.rank ≤ b.rank⟩

instance : LT Phase := ⟨fun a b => a.rank < b.rank⟩

instance (a b : Phase) : Decidable (a ≤ b) := inferInstanceAs (Decidable (a.rank ≤ b.rank))

instance (a b : Phase) : Decidable (a < b) := inferInstanceAs (Decidable (a.rank < b.rank))

def name (p : Phase) : String :=
  if 0 ≤ p.rank then names.getD p.rank.toNat "phase(?)" else "phase(?)"

/-- The phase of that name. -/
def ofName? (s : String) : Option Phase := (names.idxOf? s).map fun i => ⟨i⟩

def parse (s : String) : Except Failure Phase :=
  match ofName? s with
  | some p => .ok p
  | none => .error (.plain ("unknown phase: " ++ Text.quoted s))

def succ (p : Phase) : Phase := ⟨p.rank + 1⟩

def pred (p : Phase) : Phase := ⟨p.rank - 1⟩

/-- The phases that are reached by running a handler, in order. -/
def handled : List Phase := [typeChecked, sizeComputed, bytecodeBuilt, run]

end Phase

end Comptime
