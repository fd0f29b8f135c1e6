import Comptime.Failure
import Comptime.Ty.Basic
import Comptime.Bytecode.Code

/-!
# Calling convention

How values cross a call. A value of no size is not passed at all, a scalar travels in a register of its type, a
compound either in an integer register of its size or as a pointer to a copy. Only the last result comes back in a
register; the others, and a last result that is passed by pointer, are written through pointers the caller supplies
ahead of the arguments.
-/

namespace Comptime

/-- How a value crosses a call. -/
inductive Rule where
  | ignore
  | direct
  | indirect
deriving DecidableEq, Repr, Inhabited

namespace Rule

def all : List Rule := [ignore, direct, indirect]

def name : Rule → String
  | ignore => "ignore"
  | direct => "direct"
  | indirect => "indirect"

/-- The name of a rule given by its code. -/
def nameOfCode (c : UInt8) : String := (all[c.toNat]?.map name).getD "rule(?)"

end Rule

/-- A classified parameter or result. -/
structure Param where
  rule : Rule
  ty : Ty
  /-- The register that carries the value: an integer of its size for a direct compound, a pointer for an indirect
  value, `void` for an ignored one. -/
  reg : RegType
deriving Repr

/-- A pointer supplied by the caller for the result of that index. -/
structure Hidden where
  result : Nat
  ty : Ty
deriving Repr

/-- A classified procedure type. -/
structure Sig where
  hidden : List Hidden
  params : List Param
  ret : Param
  results : List Ty
deriving Repr

/-- The register type that carries a value of type `t`. -/
def Ty.regType? (t : Ty) : Option RegType :=
  match t with
  | bool => some .i8
  | float bits => some (if bits = 32 then .f32 else .f64)
  | ptr _ | func _ _ => some .ptr
  | _ => t.size?.map RegType.ofSize

namespace Convention

/-- Which compounds travel in a register, by their size. -/
abbrev DirectSize := Int64 → Bool

/-- Compounds of 1, 2, 4 and 8 bytes travel in a register. -/
def standard : DirectSize := fun n => n = 1 || n = 2 || n = 4 || n = 8

/-- How a value of type `t` is passed; `none` if the extent of `t` is not known. -/
def classify? (direct : DirectSize) (t : Ty) : Option Param :=
  match t with
  | .missing => some ⟨.ignore, t, .void⟩
  | _ => do
    let n ← t.size?
    if n = 0 then return ⟨.ignore, t, .void⟩
    if t.isScalar then return ⟨.direct, t, ← t.regType?⟩
    if direct n then return ⟨.direct, t, .ofSize n⟩
    return ⟨.indirect, t, .ptr⟩

/-- The results that are written through pointers, in the order of the pointers. -/
def hiddenResults (ret : Param) (outs : List Ty) : List Hidden :=
  let early := outs.dropLast.mapIdx fun i t => ⟨i, t⟩
  if ret.rule = .indirect then ⟨outs.length - 1, ret.ty⟩ :: early else early

/-- Classifies a procedure type. -/
def sig? (direct : DirectSize) (ins outs : List Ty) : Option Sig := do
  let (ret, hidden) ← match outs.getLast? with
    | none => pure (⟨.ignore, .void, .void⟩, [])
    | some t => do
      let ret ← classify? direct t
      pure (ret, hiddenResults ret outs)
  let params ← ins.mapM (classify? direct)
  return ⟨hidden, params, ret, outs⟩

end Convention

namespace Sig

/-- The types of the incoming registers, in order. -/
def regParams (s : Sig) : List RegType :=
  s.hidden.map (fun _ => .ptr) ++ (s.params.filter (·.rule != .ignore)).map (·.reg)

/-- The type of the returned register. -/
def retReg (s : Sig) : RegType :=
  if s.ret.rule = .direct then s.ret.reg else .void

end Sig

end Comptime
