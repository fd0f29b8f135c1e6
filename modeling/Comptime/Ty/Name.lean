import Comptime.Ty.Basic

/-!
# How types are written

`Ty.name` is the notation of the language. The parameter and result lists of a procedure type are written by shape
instead (`Ty.shape`): braces around the parts of a type, in order.
-/

namespace Comptime.Ty

/-- The parts of a type in braces. A struct stands under its name. -/
def shape : Ty → String
  | missing => "<nil>"
  | void | bool => "\x7b\x7d"
  | int bits signed => "\x7b" ++ toString bits ++ " " ++ toString signed ++ "\x7d"
  | float bits => "\x7b" ++ toString bits ++ "\x7d"
  | ptr t => "\x7b" ++ shape t ++ "\x7d"
  | array t len => "\x7b" ++ shape t ++ " " ++ toString len ++ "\x7d"
  | struct n _ => n
  | func _ _ => "proc"

def shapes (ts : List Ty) : String := "[" ++ " ".intercalate (ts.map shape) ++ "]"

def name : Ty → String
  | missing => "<nil>"
  | void => "void"
  | bool => "bool"
  | int bits true => "s" ++ toString bits
  | int bits false => "u" ++ toString bits
  | float bits => "f" ++ toString bits
  | ptr t => "^" ++ name t
  | array t len => "[" ++ toString len ++ "]" ++ name t
  | struct n _ => n
  | func ins outs => "proc" ++ shapes ins ++ "->" ++ shapes outs

end Comptime.Ty
