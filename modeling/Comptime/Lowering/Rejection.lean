import Comptime.Text.Quoted
import Comptime.Ty.Name
import Comptime.Tree

/-!
# Programs that cannot be lowered
-/

namespace Comptime

/-- Why a procedure is not lowered. -/
inductive Rejection where
  | noBody (proc : String)
  | unsupportedExpr (kind : String)
  | unsupportedStmt (kind : String)
  | unsupportedRef (kind : String)
  | unsupportedUnary (op : UnaryOp)
  | unsupportedBinary (op : BinaryOp)
  | notOnFloats (op : BinaryOp)
  | noConversion (source target : Ty)
  | notIndexable (ty : Ty)
  | deferAsPost
  | undefinedLocal (name : String)
  | notCallable (ty : Ty)
  | argCount (given wanted : Nat)
  | noField (name struct : String)
  | notAssignable (kind : String)
  | compoundTargets (n : Nat)
  | oneValue (targets : Nat)
  | resultCount (targets results : Nat)
  | valueCount (targets values : Nat)
  | breakOutside
  | continueOutside
  | fallthroughOutside
  | returnOne (wanted : Nat)
  | returnCount (given wanted : Nat)
deriving Repr

namespace Rejection

def unsupported (what : String) : Failure := .within what (.known .unsupported)

def toFailure : Rejection → Failure
  | noBody p => .plain ("procedure " ++ p ++ " has no body")
  | unsupportedExpr k => unsupported ("expression " ++ k)
  | unsupportedStmt k => unsupported ("statement " ++ k)
  | unsupportedRef k => unsupported ("reference to " ++ k)
  | unsupportedUnary op => unsupported ("unary " ++ Text.quoted op.symbol)
  | unsupportedBinary op => unsupported ("binary operator " ++ Text.quoted op.symbol)
  | notOnFloats op => unsupported ("float operator " ++ Text.quoted op.symbol)
  | noConversion s t => unsupported ("conversion " ++ s.name ++ " to " ++ t.name)
  | notIndexable t => unsupported ("index " ++ t.name)
  | deferAsPost => unsupported "defer as for post statement"
  | undefinedLocal n => .plain ("undefined local " ++ n)
  | notCallable t => .plain ("call of " ++ t.name)
  | argCount n w => .plain s!"call with {n} args, want {w}"
  | noField n s => .plain ("no field " ++ n ++ " in " ++ s)
  | notAssignable k => .plain ("cannot assign to " ++ k)
  | compoundTargets n => .plain s!"compound assignment of {n} targets"
  | oneValue n => .plain s!"assignment mismatch: {n} targets, 1 value"
  | resultCount n m => .plain s!"assignment mismatch: {n} targets, {m} results"
  | valueCount n m => .plain s!"assignment mismatch: {n} targets, {m} values"
  | breakOutside => .plain "break outside of a loop or switch"
  | continueOutside => .plain "continue outside of a loop"
  | fallthroughOutside => .plain "fallthrough outside of a switch"
  | returnOne w => .plain s!"return of 1 value, want {w}"
  | returnCount n w => .plain s!"return of {n} values, want {w}"

end Rejection

end Comptime
